import PerfectKeys.Magic.Search
import PerfectKeys.Run

/-!
# The sets in use

The names that the derivation of keys and the magic values in use were chosen for. The
classes and types share one two-level table; each coded set has a table of its own, with a
scheme, a magic value that is known to work, and labels for its slot listing.

Service names are matched without regard to case, and several of them share more than
eight octets and differ in length only, so their scheme ignores case and adds the length.
-/

namespace PerfectKeys

namespace Reference

/-- The classes. -/
def classes : List String :=
  ["CH", "CS", "HS", "IN"]

/-- The record types. -/
def types : List String :=
  ["A", "A6", "AAAA", "AFSDB", "APL", "CAA", "CDS", "CDNSKEY", "CERT", "CNAME", "CSYNC", "DNAME",
   "DS", "DNSKEY", "DHCID", "DLV", "EUI48", "EUI64", "GPOS", "HINFO", "HIP", "HTTPS", "IPSECKEY",
   "ISDN", "KEY", "KX", "L32", "L64", "LOC", "LP", "MB", "MD", "MF", "MG", "MINFO", "MR", "MX",
   "NAPTR", "NID", "NS", "NSAP", "NSAP-PTR", "NSEC", "NSEC3", "NSEC3PARAM", "NULL", "NXT",
   "OPENPGPKEY", "OPT", "PTR", "PX", "RP", "RRSIG", "RT", "SIG", "SMIMEA", "SOA", "SPF", "SRV",
   "SSHFP", "SVCB", "TXT", "TLSA", "URI", "WKS", "X25", "ZONEMD"]

/-- The security algorithms with their numbers. -/
def algorithms : List (String × UInt16) :=
  [("RSAMD5", 1), ("DH", 2), ("DSA", 3), ("ECC", 4), ("RSASHA1", 5), ("DSA-NSEC-SHA1", 6),
   ("RSASHA1-NSEC3-SHA1", 7), ("RSASHA256", 8), ("RSASHA512", 10), ("ECC-GOST", 12),
   ("ECDSAP256SHA256", 13), ("ECDSAP384SHA384", 14), ("INDIRECT", 252), ("PRIVATEDNS", 253),
   ("PRIVATEOID", 254)]

/-- The certificate types with their numbers. -/
def certificates : List (String × UInt16) :=
  [("PKIX", 1), ("SPKI", 2), ("PGP", 3), ("IPKIX", 4), ("ISPKI", 5), ("IPGP", 6), ("ACPKIX", 7),
   ("IACPKIX", 8), ("OID", 254), ("URI", 253)]

/-- The well-known services with their numbers. -/
def services : List (String × UInt16) :=
  [("tcpmux", 1), ("echo", 7), ("ftp-data", 20), ("ftp", 21), ("ssh", 22), ("telnet", 23),
   ("lmtp", 24), ("smtp", 25), ("nicname", 43), ("domain", 53), ("whoispp", 63), ("http", 80),
   ("kerberos", 88), ("npp", 92), ("pop3", 110), ("nntp", 119), ("ntp", 123), ("imap", 143),
   ("snmp", 161), ("snmptrap", 162), ("bgmp", 264), ("ptp-event", 319), ("ptp-general", 320),
   ("nnsp", 433), ("https", 443), ("submission", 587), ("submissions", 465), ("nntps", 563),
   ("ldaps", 636), ("domain-s", 853), ("ftps-data", 989), ("ftps", 990), ("imaps", 993),
   ("pop3s", 995)]

/-- The classes and types. -/
def lists : NameLists := ⟨classes, types⟩

/-- The report on the classes and types, which share one table. -/
def report : Logged (Except MnemonicError Report) := generate lists.items

end Reference

namespace Scheme

/-- The scheme for security algorithms. -/
def algorithms : Scheme := ⟨4, false, false⟩

/-- The scheme for certificate types. -/
def certificates : Scheme := ⟨4, false, false⟩

/-- The scheme for well-known services. -/
def services : Scheme := ⟨6, true, true⟩

end Scheme

/-- A set of names that stand for numbers. -/
inductive CodedSet where
  /-- The security algorithms. -/
  | algorithms
  /-- The certificate types. -/
  | certificates
  /-- The well-known services. -/
  | services
  deriving DecidableEq

namespace CodedSet

/-- The set that a word names. -/
def ofName? : String → Option CodedSet
  | "algorithms" => some algorithms
  | "certificates" => some certificates
  | "services" => some services
  | _ => none

/-- The names of the set with their numbers. -/
def names : CodedSet → List (String × UInt16)
  | algorithms => Reference.algorithms
  | certificates => Reference.certificates
  | services => Reference.services

/-- How the names of the set are hashed. -/
def scheme : CodedSet → Scheme
  | algorithms => .algorithms
  | certificates => .certificates
  | services => .services

/-- The magic value in use for the set. -/
def knownMagic : CodedSet → UInt64
  | algorithms => 29874
  | certificates => 98112
  | services => 138261570

/-- What the slots of the set's table are called. -/
def labels : CodedSet → SlotLabels
  | algorithms | certificates => .standard
  | services => ⟨"SERVICE", "UNKNOWN_SERVICE"⟩

end CodedSet

end PerfectKeys
