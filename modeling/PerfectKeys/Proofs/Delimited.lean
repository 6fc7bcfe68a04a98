import PerfectKeys.Proofs.Spelling

/-!
# Writings that can be read off the front of a text

When values are written one behind the other, nothing is lost if each of them can be read off
the front of what is left: it is known what was written and where it ends. `ReadsBack` says so
of one value, whatever stands behind it. It carries over to lists of any length, closed by
something that no value starts with.

What makes single parts readable is a delimiter: a part ends where the first character stands
that it cannot have.
-/

namespace PerfectKeys

/-- Whatever stands behind the writing of this value, it is read as this value only. -/
def ReadsBack {α β : Type} (write : α → List β) (a : α) : Prop :=
  ∀ b rest rest', write a ++ rest = write b ++ rest' → a = b ∧ rest = rest'

/-- No value is written with this at the front. -/
def NeverStartsWith {α β : Type} (write : α → List β) (stop : β) : Prop :=
  ∀ a, ∃ first more, write a = first :: more ∧ first ≠ stop

section Delimiters

variable {β : Type}

/-- A part ends where the first element stands that it cannot have. -/
theorem append_cons_inj_of_forall {p : β → Prop} {part part' rest rest' : List β} {c c' : β}
    (hpart : ∀ x ∈ part, p x) (hpart' : ∀ x ∈ part', p x) (hc : ¬ p c) (hc' : ¬ p c')
    (h : part ++ c :: rest = part' ++ c' :: rest') : part = part' ∧ c :: rest = c' :: rest' := by
  induction part generalizing part' with
  | nil =>
      cases part' with
      | nil => exact ⟨rfl, h⟩
      | cons x part' =>
          -- the other part would have to go on with the delimiter
          obtain ⟨rfl, -⟩ := List.cons.inj h
          exact absurd (hpart' c List.mem_cons_self) hc
  | cons x part ih =>
      cases part' with
      | nil =>
          obtain ⟨rfl, -⟩ := List.cons.inj h
          exact absurd (hpart x List.mem_cons_self) hc'
      | cons x' part' =>
          obtain ⟨rfl, htail⟩ := List.cons.inj h
          obtain ⟨rfl, hrest⟩ := ih (fun y hy => hpart y (List.mem_cons_of_mem x hy))
            (fun y hy => hpart' y (List.mem_cons_of_mem x hy)) htail
          exact ⟨rfl, hrest⟩

end Delimiters

/-- A number ends where something stands that is no digit. -/
theorem toDigits_append_cons_inj {n n' : Nat} {c c' : Char} {rest rest' : List Char}
    (hc : c.isDigit = false) (hc' : c'.isDigit = false)
    (h : Nat.toDigits 10 n ++ c :: rest = Nat.toDigits 10 n' ++ c' :: rest') :
    n = n' ∧ c :: rest = c' :: rest' := by
  have hdigits (n : Nat) : ∀ d ∈ Nat.toDigits 10 n, d.isDigit = true :=
    fun d hd => Nat.isDigit_of_mem_toDigits (by decide) (by decide) hd
  obtain ⟨heq, hrest⟩ := append_cons_inj_of_forall (p := fun d => d.isDigit = true) (hdigits n)
    (hdigits n') (Bool.eq_false_iff.mp hc) (Bool.eq_false_iff.mp hc') h
  refine ⟨?_, hrest⟩
  calc
    n = Nat.ofDigitChars 10 (Nat.toDigits 10 n) 0 := Nat.ofDigitChars_ten_toDigits.symm
    _ = Nat.ofDigitChars 10 (Nat.toDigits 10 n') 0 := by rw [heq]
    _ = n' := Nat.ofDigitChars_ten_toDigits

/-- A name ends in front of what is written between it and the first blank. That may also occur
inside the name. -/
theorem Mnemonic.chars_append_inj {a b : Mnemonic} (close : List Char) {rest rest' : List Char}
    (hclose : ' ' ∉ close)
    (h : a.chars ++ (close ++ ' ' :: rest) = b.chars ++ (close ++ ' ' :: rest')) :
    a = b ∧ rest = rest' := by
  have hpart (m : Mnemonic) : ∀ c ∈ m.chars ++ close, c ≠ ' ' := by
    intro c hc
    rcases List.mem_append.mp hc with hc | hc
    · exact ne_of_mem_chars hc (by decide)
    · exact ne_of_mem_of_not_mem hc hclose
  rw [← List.append_assoc, ← List.append_assoc] at h
  obtain ⟨hchars, hrest⟩ := append_cons_inj_of_forall (hpart a) (hpart b) (by simp) (by simp) h
  exact ⟨chars_inj (List.append_cancel_right hchars), (List.cons.inj hrest).2⟩

section Sequences

variable {α β : Type} {write : α → List β} {stop : β}

theorem NeverStartsWith.append_ne (h : NeverStartsWith write stop) (a : α) (rest rest' : List β) :
    write a ++ rest ≠ stop :: rest' := by
  intro heq
  obtain ⟨first, more, ha, hne⟩ := h a
  rw [ha, List.cons_append] at heq
  exact hne (List.cons.inj heq).1

/-- **Values written one behind the other are read back, up to what closes them.** -/
theorem flatMap_append_cons_inj (hstop : NeverStartsWith write stop) {l l' : List α}
    {rest rest' : List β} (hl : ∀ a ∈ l, ReadsBack write a)
    (h : l.flatMap write ++ stop :: rest = l'.flatMap write ++ stop :: rest') :
    l = l' ∧ rest = rest' := by
  induction l generalizing l' with
  | nil =>
      cases l' with
      | nil => exact ⟨rfl, (List.cons.inj h).2⟩
      | cons b l' =>
          rw [List.flatMap_cons, List.append_assoc] at h
          exact absurd h.symm (hstop.append_ne b _ rest)
  | cons a l ih =>
      cases l' with
      | nil =>
          rw [List.flatMap_cons, List.append_assoc] at h
          exact absurd h (hstop.append_ne a _ rest')
      | cons b l' =>
          rw [List.flatMap_cons, List.flatMap_cons, List.append_assoc, List.append_assoc] at h
          obtain ⟨rfl, htail⟩ := hl a List.mem_cons_self b _ _ h
          obtain ⟨rfl, hrest⟩ := ih (fun x hx => hl x (List.mem_cons_of_mem a hx)) htail
          exact ⟨rfl, hrest⟩

end Sequences

end PerfectKeys
