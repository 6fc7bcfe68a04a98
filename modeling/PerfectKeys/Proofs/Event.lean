import PerfectKeys.Event

/-!
# Records

Of an event a log shows three things: how severe it is, which component it comes from, and its
words. A record is just these, so what a log says can be compared with what it should say without
any event in between.
-/

namespace PerfectKeys

/-- What a log shows of an event. -/
structure LogRecord where
  level : Level
  /-- The name of the component. -/
  target : String
  message : String
  deriving DecidableEq

/-- What is shown of the event. -/
def Event.record (e : Event) : LogRecord := ⟨e.level, e.component.target, e.message⟩

/-- What is to be shown of an entry. Only a collision calls for attention. -/
def Entry.record (e : Entry) : LogRecord :=
  let place := s!"bucket {e.key.bucket.val}, slot {e.key.slot.toNat}"
  if e.collision then
    ⟨.warn, "zone_keys::keys", s!"{e.role.text} {e.mnemonic.text} collides at {place}"⟩
  else
    ⟨.trace, "zone_keys::keys", s!"{e.role.text} {e.mnemonic.text} at {place}"⟩

/-- The event of an entry is recorded as the entry is. -/
theorem record_keyed (e : Entry) : (Event.keyed e).record = e.record := by
  obtain ⟨role, mnemonic, key, collision⟩ := e
  -- the words are put together in another order, so they are compared letter by letter
  cases collision with
  | false =>
      refine congrArg (LogRecord.mk .trace "zone_keys::keys") (String.toList_inj.mp ?_)
      unfold Event.message
      dsimp only
      rw [if_neg Bool.false_ne_true]
      simp only [toString, String.toList_append, List.append_assoc]
      rfl
  | true =>
      refine congrArg (LogRecord.mk .warn "zone_keys::keys") (String.toList_inj.mp ?_)
      unfold Event.message
      dsimp only
      rw [if_pos rfl]
      simp only [toString, String.toList_append, List.append_assoc]
      rfl

end PerfectKeys
