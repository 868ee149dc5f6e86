/-
**The fetch guard.**

A resolved address may be connected to if it is in no refused range, neither as itself nor as the v4
address it spells, or if an operator has granted it. The code tests octets and segments under masks
and decodes five spellings by position. The ranges are blocks here, the spellings are prefixes of bits
(`Spells`), and the code decides just these (`classify_eq_none_iff`, `contains_eq`). So the filter
keeps what is granted or outside of every refused block, in order, and never indexes past an address
(`filter_guards`).
-/

import DrStrange.Lib.Octets
import DrStrange.Lib.Pieces
import DrStrange.Lib.Utf8

namespace DrStrange.Web

open DrStrange.Lib

/-! ### Addresses -/

structure Ipv4Addr where
  (a b c d : U8)
  deriving DecidableEq, Repr

def Ipv4Addr.octets (ip : Ipv4Addr) : List U8 := [ip.a, ip.b, ip.c, ip.d]

/-- A v6 address by its sixteen octets. -/
structure Ipv6Addr where
  (o0 o1 o2 o3 o4 o5 o6 o7 o8 o9 o10 o11 o12 o13 o14 o15 : U8)
  deriving DecidableEq, Repr

def Ipv6Addr.octets (ip : Ipv6Addr) : List U8 :=
  [ip.o0, ip.o1, ip.o2, ip.o3, ip.o4, ip.o5, ip.o6, ip.o7, ip.o8, ip.o9, ip.o10, ip.o11, ip.o12,
    ip.o13, ip.o14, ip.o15]

/-- The eight 16-bit segments. -/
def Ipv6Addr.segments (ip : Ipv6Addr) : Fin 8 → BitVec 16 :=
  ![ip.o0 ++ ip.o1, ip.o2 ++ ip.o3, ip.o4 ++ ip.o5, ip.o6 ++ ip.o7, ip.o8 ++ ip.o9,
    ip.o10 ++ ip.o11, ip.o12 ++ ip.o13, ip.o14 ++ ip.o15]

inductive IpAddr where
  | v4 (ip : Ipv4Addr)
  | v6 (ip : Ipv6Addr)
  deriving DecidableEq, Repr

/-- A resolved address. -/
inductive SocketAddr where
  | v4 (ip : Ipv4Addr) (port : UInt16)
  | v6 (ip : Ipv6Addr) (port : UInt16) (flowinfo scopeId : UInt32)
  deriving DecidableEq, Repr

def SocketAddr.ip : SocketAddr → IpAddr
  | .v4 ip _ => .v4 ip
  | .v6 ip _ _ _ => .v6 ip

/-! ### The ranges of the standard library -/

def Ipv4Addr.isUnspecified (ip : Ipv4Addr) : Bool := ip = ⟨0, 0, 0, 0⟩

def Ipv4Addr.isLoopback (ip : Ipv4Addr) : Bool := ip.a = 127

def Ipv4Addr.isPrivate (ip : Ipv4Addr) : Bool :=
  ip.a = 10 || (ip.a = 172 && 16 ≤ ip.b && ip.b ≤ 31) || (ip.a = 192 && ip.b = 168)

def Ipv4Addr.isLinkLocal (ip : Ipv4Addr) : Bool := ip.a = 169 && ip.b = 254

def Ipv4Addr.isBroadcast (ip : Ipv4Addr) : Bool := ip = ⟨255, 255, 255, 255⟩

def Ipv4Addr.isMulticast (ip : Ipv4Addr) : Bool := 224 ≤ ip.a && ip.a ≤ 239

def Ipv4Addr.isDocumentation (ip : Ipv4Addr) : Bool :=
  (ip.a = 192 && ip.b = 0 && ip.c = 2) || (ip.a = 198 && ip.b = 51 && ip.c = 100) ||
    (ip.a = 203 && ip.b = 0 && ip.c = 113)

def Ipv6Addr.unspecified : Ipv6Addr := ⟨0, 0, 0, 0, 0, 0, 0, 0, 0, 0, 0, 0, 0, 0, 0, 0⟩

def Ipv6Addr.localhost : Ipv6Addr := ⟨0, 0, 0, 0, 0, 0, 0, 0, 0, 0, 0, 0, 0, 0, 0, 1⟩

def Ipv6Addr.isUnspecified (ip : Ipv6Addr) : Bool := ip = Ipv6Addr.unspecified

def Ipv6Addr.isLoopback (ip : Ipv6Addr) : Bool := ip = Ipv6Addr.localhost

def Ipv6Addr.isMulticast (ip : Ipv6Addr) : Bool := ip.o0 = 0xff

/-- `::ffff:a.b.c.d`. -/
def Ipv6Addr.toIpv4Mapped (ip : Ipv6Addr) : Option Ipv4Addr :=
  if ip.octets.take 12 = [0, 0, 0, 0, 0, 0, 0, 0, 0, 0, 0xff, 0xff] then
    some ⟨ip.o12, ip.o13, ip.o14, ip.o15⟩
  else none

/-! ### The guard -/

/-- The v4 address that a v6 one carries. -/
def embeddedV4 (ip : Ipv6Addr) : Option Ipv4Addr :=
  let s := ip.segments
  match ip.toIpv4Mapped with
  | some v4 => some v4
  | none =>
    if [s 0, s 1, s 2, s 3, s 4, s 5] = [0x64, 0xff9b, 0, 0, 0, 0] then
      some ⟨ip.o12, ip.o13, ip.o14, ip.o15⟩
    else if [s 0, s 1, s 2, s 3, s 4, s 5] = [0, 0, 0, 0, 0, 0] ∧ (s 6 ≠ 0 ∨ s 7 > 1) then
      some ⟨ip.o12, ip.o13, ip.o14, ip.o15⟩
    else if s 0 = 0x2002 then some ⟨ip.o2, ip.o3, ip.o4, ip.o5⟩
    else if s 0 = 0x2001 ∧ s 1 = 0 then
      some ⟨~~~ip.o12, ~~~ip.o13, ~~~ip.o14, ~~~ip.o15⟩
    else none

def classifyV4 (ip : Ipv4Addr) : Option String :=
  if ip.isUnspecified || ip.a = 0 then some "an unspecified address"
  else if ip.isLoopback then some "loopback"
  else if ip.isPrivate then some "a private address"
  else if ip.isLinkLocal then some "link-local (cloud metadata lives here)"
  else if ip.isBroadcast then some "broadcast"
  else if ip.isMulticast then some "multicast"
  else if ip.isDocumentation then some "documentation space"
  else if ip.a = 100 && (64 ≤ ip.b && ip.b < 128) then some "shared address space (CGNAT)"
  else if ip.a = 198 && (18 ≤ ip.b && ip.b < 20) then some "benchmarking space"
  else if ip.a = 192 && ip.b = 0 && ip.c = 0 then some "IETF protocol assignments"
  else if ip.a ≥ 240 then some "reserved space"
  else none

def classifyV6 (ip : Ipv6Addr) : Option String :=
  let s := ip.segments
  if ip.isUnspecified then some "an unspecified address"
  else if ip.isLoopback then some "loopback"
  else if ip.isMulticast then some "multicast"
  else if s 0 &&& 0xfe00 = 0xfc00 then some "a unique-local address"
  else if s 0 &&& 0xffc0 = 0xfe80 then some "link-local"
  else if s 0 = 0x64 ∧ s 1 = 0xff9b ∧ s 2 = 1 then some "local-use NAT64 space"
  else if s 0 = 0x2001 ∧ s 1 = 0x0db8 then some "documentation space"
  else none

/-- Why an address may not be connected to, or `none` when it is fine to fetch. -/
def classify : IpAddr → Option String
  | .v4 v4 => classifyV4 v4
  | .v6 v6 => ((embeddedV4 v6).bind classifyV4).or (classifyV6 v6)

/-- The bits of an address. -/
def IpAddr.full : IpAddr → ℕ
  | .v4 _ => 32
  | .v6 _ => 128

/-- A block that an operator has permitted. -/
structure Prefix where
  addr : IpAddr
  bits : ℕ
  fits : bits ≤ addr.full

/-- `str::parse::<u8>`. -/
def parseU8 (text : List Char) : Option ℕ :=
  let digits := if text.head? = some '+' then text.tail else text
  if digits ≠ [] ∧ digits.all Char.isDigit then
    let value := Nat.ofDigitChars 10 digits 0
    if value < 256 then some value else none
  else none

/-- `Prefix::parse`, over any parser of addresses. -/
def Prefix.parse (parseAddr : List Char → Option IpAddr) (s : String) : Except String Prefix :=
  let (addr, bits) := match splitOnce ['/'] s.toList with
    | some (a, b) => (a, some b)
    | none => (s.toList, none)
  match parseAddr (trim addr) with
  | none => .error s!"`{s}` is not an IP address or CIDR block"
  | some addr =>
    match bits with
    | none => .ok ⟨addr, addr.full, le_rfl⟩
    | some b =>
      match parseU8 (trim b) with
      | none => .error s!"`{s}` has an out-of-range prefix length"
      | some b =>
        if fits : b ≤ addr.full then .ok ⟨addr, b, fits⟩
        else .error s!"`{s}` has an out-of-range prefix length"

/-- `matches`: whole octets, then the first bits of the next; `none` where an index is out of
bounds. -/
def matchesBits (a b : List U8) (bits : ℕ) : Option Bool :=
  let whole := bits / 8
  let rest := bits % 8
  if a.length < whole ∨ b.length < whole then none
  else if a.take whole ≠ b.take whole then some false
  else if rest = 0 then some true
  else
    let mask := 0xff#8 <<< (8 - rest)
    (a[whole]?).bind fun x => (b[whole]?).map fun y => x &&& mask = y &&& mask

def Prefix.contains (grant : Prefix) (ip : IpAddr) : Option Bool :=
  match grant.addr, ip with
  | .v4 p, .v4 x => matchesBits p.octets x.octets grant.bits
  | .v6 p, .v6 x => matchesBits p.octets x.octets grant.bits
  | .v4 p, .v6 x =>
    match embeddedV4 x with
    | some v4 => matchesBits p.octets v4.octets grant.bits
    | none => some false
  | .v6 _, .v4 _ => some false

/-- `allow.iter().any(|p| p.contains(ip))`. -/
def anyContains (ip : IpAddr) : List Prefix → Option Bool
  | [] => some false
  | grant :: allow => (grant.contains ip).bind fun inside =>
    if inside then some true else anyContains ip allow

/-- The loop of `filter`: what is kept, and the first refusal. -/
def filterLoop (display : IpAddr → String) (allow : List Prefix) :
    List SocketAddr → List SocketAddr → Option String → Option (List SocketAddr × Option String)
  | [], ok, refused => some (ok, refused)
  | a :: addrs, ok, refused =>
    match classify a.ip with
    | none => filterLoop display allow addrs (ok ++ [a]) refused
    | some why => (anyContains a.ip allow).bind fun granted =>
      if granted then filterLoop display allow addrs (ok ++ [a]) refused
      else filterLoop display allow addrs ok (refused.or (some (display a.ip ++ " is " ++ why)))

/-- Keep the addresses that may be connected to, and say why if none may be. The outer `none` is a
panic. -/
def filter (display : IpAddr → String) (addrs : List SocketAddr) (allow : List Prefix) :
    Option (Except String (List SocketAddr)) :=
  (filterLoop display allow addrs [] none).map fun (ok, refused) =>
    if ok.isEmpty then .error (refused.getD "the name resolved to nothing") else .ok ok

/-! ### Blocks and spellings -/

/-- A block of addresses: those that are the same on its first bits. -/
abbrev Block := List U8 × ℕ

def inBlock (octets : List U8) (block : Block) : Prop := SameFirst block.2 octets block.1

instance (octets : List U8) (block : Block) : Decidable (inBlock octets block) :=
  inferInstanceAs (Decidable (SameFirst _ _ _))

/-- The refused v4 blocks. -/
def refusedV4 : List Block :=
  [([0, 0, 0, 0], 8), ([127, 0, 0, 0], 8), ([10, 0, 0, 0], 8), ([172, 16, 0, 0], 12),
    ([192, 168, 0, 0], 16), ([169, 254, 0, 0], 16), ([255, 255, 255, 255], 32), ([224, 0, 0, 0], 4),
    ([192, 0, 2, 0], 24), ([198, 51, 100, 0], 24), ([203, 0, 113, 0], 24), ([100, 64, 0, 0], 10),
    ([198, 18, 0, 0], 15), ([192, 0, 0, 0], 24), ([240, 0, 0, 0], 4)]

/-- The octets of a v6 block: the first ones, then zeros. -/
def v6Octets (first : List U8) : List U8 := first ++ List.replicate (16 - first.length) 0

/-- The refused v6 blocks. -/
def refusedV6 : List Block :=
  [(Ipv6Addr.unspecified.octets, 128), (Ipv6Addr.localhost.octets, 128), (v6Octets [0xff], 8),
    (v6Octets [0xfc], 7), (v6Octets [0xfe, 0x80], 10), (v6Octets [0, 0x64, 0xff, 0x9b, 0, 1], 48),
    (v6Octets [0x20, 0x01, 0x0d, 0xb8], 32)]

/-- How a v6 address spells a v4 one. -/
inductive Spells (ip : Ipv6Addr) (v4 : Ipv4Addr) : Prop where
  | mapped (block : inBlock ip.octets (v6Octets [0, 0, 0, 0, 0, 0, 0, 0, 0, 0, 0xff, 0xff], 96))
      (tail : (bits ip.octets).drop 96 = bits v4.octets)
  | compatible (block : inBlock ip.octets (v6Octets [], 96)) (unspecified : ip ≠ Ipv6Addr.unspecified)
      (loopback : ip ≠ Ipv6Addr.localhost) (tail : (bits ip.octets).drop 96 = bits v4.octets)
  | nat64 (block : inBlock ip.octets (v6Octets [0, 0x64, 0xff, 0x9b], 96))
      (tail : (bits ip.octets).drop 96 = bits v4.octets)
  | sixToFour (block : inBlock ip.octets (v6Octets [0x20, 0x02], 16))
      (middle : ((bits ip.octets).drop 16).take 32 = bits v4.octets)
  | teredo (block : inBlock ip.octets (v6Octets [0x20, 0x01, 0, 0], 32))
      (tail : (bits ip.octets).drop 96 = (bits v4.octets).map not)

/-! ### The comparison of bits -/

variable {a b : List U8} {n : ℕ}

theorem matchesBits_eq (same : a.length = b.length) (fits : n ≤ 8 * a.length) :
    matchesBits a b n = some (decide (SameFirst n a b)) := by
  induction a generalizing b n with
  | nil =>
    obtain rfl := List.length_eq_zero_iff.mp same.symm
    obtain rfl := Nat.le_zero.mp fits
    rfl
  | cons x a ih =>
    cases b with
    | nil => cases same
    | cons y b =>
      by_cases small : n < 8
      · have whole : n / 8 = 0 := Nat.div_eq_of_lt small
        have rest : n % 8 = n := Nat.mod_eq_of_lt small
        by_cases none_ : n = 0
        · subst none_
          simp [matchesBits]
        · simp [matchesBits, whole, rest, none_, sameFirst_part small.le, topMask]
      · obtain ⟨m, rfl⟩ := Nat.exists_eq_add_of_le' (Nat.le_of_not_lt small)
        have inner := ih (Nat.succ.inj same) (n := m) (by rw [List.length_cons] at fits; omega)
        have whole : (m + 8) / 8 = m / 8 + 1 := by omega
        have rest : (m + 8) % 8 = m % 8 := by omega
        rw [matchesBits] at inner ⊢
        simp only [whole, rest, List.length_cons, Nat.add_lt_add_iff_right, List.take_succ_cons,
          List.getElem?_cons_succ, sameFirst_cons]
        by_cases head : x = y
        · subst head
          simpa using inner
        · rw [List.length_cons] at fits
          have short : ¬ (a.length < m / 8 ∨ b.length < m / 8) := by
            rw [List.length_cons, List.length_cons] at same
            omega
          rw [if_neg short, if_pos fun equal => head (List.cons.inj equal).1]
          simp [head]

/-! ### Ranges as blocks -/

theorem ite_some_eq_none {α : Type*} {c : Prop} [Decidable c] {x : α} {rest : Option α} :
    (if c then some x else rest) = none ↔ ¬ c ∧ rest = none := by
  by_cases held : c <;> simp [held]

/-- Blocks whose last bits end inside of an octet are ranges of that octet. -/
theorem topMask_ranges (octet : U8) :
    (octet &&& topMask 4 = 16 &&& topMask 4 ↔ 16 ≤ octet ∧ octet ≤ 31) ∧
    (octet &&& topMask 4 = 224 &&& topMask 4 ↔ 224 ≤ octet ∧ octet ≤ 239) ∧
    (octet &&& topMask 2 = 64 &&& topMask 2 ↔ 64 ≤ octet ∧ octet < 128) ∧
    (octet &&& topMask 7 = 18 &&& topMask 7 ↔ 18 ≤ octet ∧ octet < 20) ∧
    (octet &&& topMask 4 = 240 &&& topMask 4 ↔ 240 ≤ octet) := by
  have small := octet.isLt
  simp only [masked_iff_div, BitVec.le_def, BitVec.lt_def, BitVec.ofNat_eq_ofNat, BitVec.toNat_ofNat,
    Nat.reduceSub, Nat.reducePow, Nat.reduceMod, Nat.reduceDiv]
  refine ⟨?_, ?_, ?_, ?_, ?_⟩ <;> omega

theorem classifyV4_eq_none_iff (ip : Ipv4Addr) :
    classifyV4 ip = none ↔ ∀ block ∈ refusedV4, ¬ inBlock ip.octets block := by
  obtain ⟨a, b, c, d⟩ := ip
  have part : ∀ {n : ℕ} {x y : U8} {a b : List U8}, n < 8 →
      (SameFirst n (x :: a) (y :: b) ↔ x &&& topMask n = y &&& topMask n) :=
    fun small => sameFirst_part small.le
  simp only [refusedV4, inBlock, Ipv4Addr.octets, List.forall_mem_cons, List.not_mem_nil,
    false_imp_iff, implies_true, and_true, sameFirst_cons, sameFirst_zero]
  simp only [part (show 4 < 8 by decide), part (show 2 < 8 by decide), part (show 7 < 8 by decide),
    (topMask_ranges _).1, (topMask_ranges _).2.1, (topMask_ranges _).2.2.1,
    (topMask_ranges _).2.2.2.1, (topMask_ranges _).2.2.2.2]
  simp only [classifyV4, ite_some_eq_none, Ipv4Addr.isUnspecified, Ipv4Addr.isLoopback,
    Ipv4Addr.isPrivate, Ipv4Addr.isLinkLocal, Ipv4Addr.isBroadcast, Ipv4Addr.isMulticast,
    Ipv4Addr.isDocumentation, Ipv4Addr.mk.injEq, Bool.or_eq_true, Bool.and_eq_true, decide_eq_true_eq,
    ge_iff_le, and_true]
  rw [or_iff_right_of_imp (And.left : a = 0 ∧ b = 0 ∧ c = 0 ∧ d = 0 → a = 0)]
  simp only [not_or, and_assoc]

/-- A segment by its octets. -/
theorem append_eq_iff {a b x y : U8} : a ++ b = x ++ y ↔ a = x ∧ b = y := by
  constructor
  · intro same
    have high := congrArg (fun s : BitVec (8 + 8) => s.extractLsb' 8 8) same
    have low := congrArg (fun s : BitVec (8 + 8) => s.extractLsb' 0 8) same
    simp only [BitVec.extractLsb'_append_eq_left, BitVec.extractLsb'_append_eq_right] at high low
    exact ⟨high, low⟩
  · rintro ⟨rfl, rfl⟩
    rfl

/-- A segment that is a constant, by its octets. -/
theorem segment_eq_iff {a b : U8} (c : BitVec 16) (x y : U8) (octets : c = x ++ y) :
    a ++ b = c ↔ a = x ∧ b = y := by
  rw [octets]
  exact append_eq_iff

theorem segments_eq (ip : Ipv6Addr) :
    ip.segments 0 = ip.o0 ++ ip.o1 ∧ ip.segments 1 = ip.o2 ++ ip.o3 ∧
    ip.segments 2 = ip.o4 ++ ip.o5 ∧ ip.segments 3 = ip.o6 ++ ip.o7 ∧
    ip.segments 4 = ip.o8 ++ ip.o9 ∧ ip.segments 5 = ip.o10 ++ ip.o11 ∧
    ip.segments 6 = ip.o12 ++ ip.o13 ∧ ip.segments 7 = ip.o14 ++ ip.o15 :=
  ⟨rfl, rfl, rfl, rfl, rfl, rfl, rfl, rfl⟩

/-- The masked segments of the unique-local and of the link-local block. -/
theorem masked_segments (a b : U8) :
    ((a ++ b) &&& 0xfe00 = (0xfc00 : BitVec 16) ↔ a &&& topMask 7 = 0xfc &&& topMask 7) ∧
    ((a ++ b) &&& 0xffc0 = (0xfe80 : BitVec 16) ↔
      a = 0xfe ∧ b &&& topMask 2 = 0x80 &&& topMask 2) := by
  have unique : (0xfe00 : BitVec 16) = (0xfe : U8) ++ (0 : U8) := by decide
  have link : (0xffc0 : BitVec 16) = (0xff : U8) ++ (0xc0 : U8) := by decide
  have keep : a &&& (0xff : U8) = a := BitVec.and_allOnes
  rw [unique, link, BitVec.and_append, BitVec.and_append, segment_eq_iff 0xfc00 0xfc 0 (by decide),
    segment_eq_iff 0xfe80 0xfe 0x80 (by decide), keep]
  refine ⟨?_, Iff.rfl⟩
  exact and_iff_left BitVec.and_zero

theorem classifyV6_eq_none_iff (ip : Ipv6Addr) :
    classifyV6 ip = none ↔ ∀ block ∈ refusedV6, ¬ inBlock ip.octets block := by
  obtain ⟨o0, o1, o2, o3, o4, o5, o6, o7, o8, o9, o10, o11, o12, o13, o14, o15⟩ := ip
  have part : ∀ {n : ℕ} {x y : U8} {a b : List U8}, n < 8 →
      (SameFirst n (x :: a) (y :: b) ↔ x &&& topMask n = y &&& topMask n) :=
    fun small => sameFirst_part small.le
  simp only [refusedV6, inBlock, Ipv6Addr.octets, Ipv6Addr.unspecified, Ipv6Addr.localhost,
    v6Octets, List.length_cons, List.length_nil, List.replicate, List.cons_append, List.nil_append,
    List.forall_mem_cons, List.not_mem_nil, false_imp_iff, implies_true, and_true, sameFirst_cons,
    sameFirst_zero, part (show 7 < 8 by decide), part (show 2 < 8 by decide)]
  simp only [classifyV6, ite_some_eq_none, Ipv6Addr.isUnspecified, Ipv6Addr.isLoopback,
    Ipv6Addr.isMulticast, Ipv6Addr.unspecified, Ipv6Addr.localhost, Ipv6Addr.mk.injEq,
    decide_eq_true_eq, (segments_eq _).1, (segments_eq _).2.1, (segments_eq _).2.2.1,
    (masked_segments _ _).1, (masked_segments _ _).2, segment_eq_iff 0x64 0 0x64 (by decide),
    segment_eq_iff 0xff9b 0xff 0x9b (by decide), segment_eq_iff 1 0 1 (by decide),
    segment_eq_iff 0x2001 0x20 0x01 (by decide), segment_eq_iff 0x0db8 0x0d 0xb8 (by decide),
    and_true, and_assoc]

/-! ### Spellings -/

/-- The bits of four octets are those of an address. -/
theorem carried_iff (a b c d : U8) (v4 : Ipv4Addr) :
    bits [a, b, c, d] = bits v4.octets ↔ (⟨a, b, c, d⟩ : Ipv4Addr) = v4 := by
  constructor
  · intro same
    have octets := bits_injective same
    simp only [Ipv4Addr.octets, List.cons.injEq, and_true] at octets
    obtain ⟨rfl, rfl, rfl, rfl⟩ := octets
    rfl
  · rintro rfl
    rfl

theorem inverted_iff (a b c d : U8) (v4 : Ipv4Addr) :
    bits [a, b, c, d] = (bits v4.octets).map not ↔
      (⟨~~~a, ~~~b, ~~~c, ~~~d⟩ : Ipv4Addr) = v4 := by
  rw [← carried_iff]
  have twice : ∀ octets : List U8,
      ((octets.map fun octet => ~~~octet).map fun octet => ~~~octet) = octets := by
    intro octets
    rw [List.map_map]
    exact (List.map_congr_left fun octet _ => BitVec.not_not).trans (List.map_id' octets)
  constructor
  · intro same
    rw [show [~~~a, ~~~b, ~~~c, ~~~d] = [a, b, c, d].map fun octet => ~~~octet from rfl,
      bits_map_not, same, ← bits_map_not, ← bits_map_not, twice]
  · intro same
    rw [← same, ← bits_map_not]
    exact congrArg bits (twice [a, b, c, d]).symm

/-- The five spellings, octet by octet. -/
theorem spells_iff (ip : Ipv6Addr) (v4 : Ipv4Addr) :
    Spells ip v4 ↔
      (ip.octets.take 12 = [0, 0, 0, 0, 0, 0, 0, 0, 0, 0, 0xff, 0xff] ∧
        (⟨ip.o12, ip.o13, ip.o14, ip.o15⟩ : Ipv4Addr) = v4) ∨
      (ip.octets.take 12 = [0, 0, 0, 0, 0, 0, 0, 0, 0, 0, 0, 0] ∧ ip ≠ Ipv6Addr.unspecified ∧
        ip ≠ Ipv6Addr.localhost ∧ (⟨ip.o12, ip.o13, ip.o14, ip.o15⟩ : Ipv4Addr) = v4) ∨
      (ip.octets.take 12 = [0, 0x64, 0xff, 0x9b, 0, 0, 0, 0, 0, 0, 0, 0] ∧
        (⟨ip.o12, ip.o13, ip.o14, ip.o15⟩ : Ipv4Addr) = v4) ∨
      (ip.octets.take 2 = [0x20, 0x02] ∧ (⟨ip.o2, ip.o3, ip.o4, ip.o5⟩ : Ipv4Addr) = v4) ∨
      (ip.octets.take 4 = [0x20, 0x01, 0, 0] ∧
        (⟨~~~ip.o12, ~~~ip.o13, ~~~ip.o14, ~~~ip.o15⟩ : Ipv4Addr) = v4) := by
  have tail : (bits ip.octets).drop 96 = bits [ip.o12, ip.o13, ip.o14, ip.o15] :=
    drop_bits ip.octets 12
  have middle : ((bits ip.octets).drop 16).take 32 = bits [ip.o2, ip.o3, ip.o4, ip.o5] := by
    rw [show (bits ip.octets).drop 16 = _ from drop_bits ip.octets 2]
    exact take_bits _ 4
  have twelve : ∀ octets : List U8, inBlock ip.octets (octets, 96) ↔
      ip.octets.take 12 = octets.take 12 := fun octets => sameFirst_octets 12
  have two : ∀ octets : List U8, inBlock ip.octets (octets, 16) ↔
      ip.octets.take 2 = octets.take 2 := fun octets => sameFirst_octets 2
  have four : ∀ octets : List U8, inBlock ip.octets (octets, 32) ↔
      ip.octets.take 4 = octets.take 4 := fun octets => sameFirst_octets 4
  constructor
  · intro spells
    cases spells with
    | mapped block same =>
      exact .inl ⟨(twelve _).mp block, (carried_iff _ _ _ _ _).mp (tail ▸ same)⟩
    | compatible block unspecified loopback same =>
      exact .inr (.inl ⟨(twelve _).mp block, unspecified, loopback,
        (carried_iff _ _ _ _ _).mp (tail ▸ same)⟩)
    | nat64 block same =>
      exact .inr (.inr (.inl ⟨(twelve _).mp block, (carried_iff _ _ _ _ _).mp (tail ▸ same)⟩))
    | sixToFour block same =>
      exact .inr (.inr (.inr (.inl ⟨(two _).mp block, (carried_iff _ _ _ _ _).mp (middle ▸ same)⟩)))
    | teredo block same =>
      exact .inr (.inr (.inr (.inr ⟨(four _).mp block, (inverted_iff _ _ _ _ _).mp (tail ▸ same)⟩)))
  · rintro (⟨block, same⟩ | ⟨block, unspecified, loopback, same⟩ | ⟨block, same⟩ | ⟨block, same⟩ |
      ⟨block, same⟩)
    · exact .mapped ((twelve _).mpr block) (tail ▸ (carried_iff _ _ _ _ _).mpr same)
    · exact .compatible ((twelve _).mpr block) unspecified loopback
        (tail ▸ (carried_iff _ _ _ _ _).mpr same)
    · exact .nat64 ((twelve _).mpr block) (tail ▸ (carried_iff _ _ _ _ _).mpr same)
    · exact .sixToFour ((two _).mpr block) (middle ▸ (carried_iff _ _ _ _ _).mpr same)
    · exact .teredo ((four _).mpr block) (tail ▸ (inverted_iff _ _ _ _ _).mpr same)

theorem segment_gt_one_iff (a b : U8) :
    a ++ b > (1 : BitVec 16) ↔ ¬ (a = 0 ∧ b = 0) ∧ ¬ (a = 0 ∧ b = 1) := by
  rw [← segment_eq_iff 0 0 0 (by decide), ← segment_eq_iff 1 0 1 (by decide)]
  generalize a ++ b = segment
  bv_omega

/-- Behind twelve zero octets only the two addresses that v6 has of its own are left out. -/
theorem compatible_iff (ip : Ipv6Addr) :
    [ip.segments 0, ip.segments 1, ip.segments 2, ip.segments 3, ip.segments 4, ip.segments 5] =
        [0, 0, 0, 0, 0, 0] ∧ (ip.segments 6 ≠ 0 ∨ ip.segments 7 > 1) ↔
      ip.octets.take 12 = [0, 0, 0, 0, 0, 0, 0, 0, 0, 0, 0, 0] ∧ ip ≠ Ipv6Addr.unspecified ∧
        ip ≠ Ipv6Addr.localhost := by
  obtain ⟨o0, o1, o2, o3, o4, o5, o6, o7, o8, o9, o10, o11, o12, o13, o14, o15⟩ := ip
  simp only [Ipv6Addr.octets, List.take_succ_cons, List.take_zero, segments_eq, List.cons.injEq,
    and_true, segment_eq_iff 0 0 0 (by decide), segment_gt_one_iff, and_assoc, ne_eq,
    Ipv6Addr.unspecified, Ipv6Addr.localhost, Ipv6Addr.mk.injEq]
  constructor
  · rintro ⟨rfl, rfl, rfl, rfl, rfl, rfl, rfl, rfl, rfl, rfl, rfl, rfl, set⟩
    simp only [true_and]
    tauto
  · rintro ⟨rfl, rfl, rfl, rfl, rfl, rfl, rfl, rfl, rfl, rfl, rfl, rfl, unspecified, loopback⟩
    simp only [true_and] at unspecified loopback ⊢
    tauto

/-- The forms by their first octets. -/
theorem embeddedV4_eq (ip : Ipv6Addr) :
    embeddedV4 ip =
      if ip.octets.take 12 = [0, 0, 0, 0, 0, 0, 0, 0, 0, 0, 0xff, 0xff] then
        some ⟨ip.o12, ip.o13, ip.o14, ip.o15⟩
      else if ip.octets.take 12 = [0, 0x64, 0xff, 0x9b, 0, 0, 0, 0, 0, 0, 0, 0] then
        some ⟨ip.o12, ip.o13, ip.o14, ip.o15⟩
      else if ip.octets.take 12 = [0, 0, 0, 0, 0, 0, 0, 0, 0, 0, 0, 0] ∧ ip ≠ Ipv6Addr.unspecified ∧
          ip ≠ Ipv6Addr.localhost then
        some ⟨ip.o12, ip.o13, ip.o14, ip.o15⟩
      else if ip.octets.take 2 = [0x20, 0x02] then some ⟨ip.o2, ip.o3, ip.o4, ip.o5⟩
      else if ip.octets.take 4 = [0x20, 0x01, 0, 0] then
        some ⟨~~~ip.o12, ~~~ip.o13, ~~~ip.o14, ~~~ip.o15⟩
      else none := by
  have nat64 : [ip.segments 0, ip.segments 1, ip.segments 2, ip.segments 3, ip.segments 4,
      ip.segments 5] = [0x64, 0xff9b, 0, 0, 0, 0] ↔
        ip.octets.take 12 = [0, 0x64, 0xff, 0x9b, 0, 0, 0, 0, 0, 0, 0, 0] := by
    simp only [Ipv6Addr.octets, List.take_succ_cons, List.take_zero, segments_eq, List.cons.injEq,
      and_true, segment_eq_iff 0x64 0 0x64 (by decide), segment_eq_iff 0xff9b 0xff 0x9b (by decide),
      segment_eq_iff 0 0 0 (by decide), and_assoc]
  have sixToFour : ip.segments 0 = 0x2002 ↔ ip.octets.take 2 = [0x20, 0x02] := by
    simp only [Ipv6Addr.octets, List.take_succ_cons, List.take_zero, segments_eq, List.cons.injEq,
      and_true, segment_eq_iff 0x2002 0x20 0x02 (by decide)]
  have teredo : ip.segments 0 = 0x2001 ∧ ip.segments 1 = 0 ↔
      ip.octets.take 4 = [0x20, 0x01, 0, 0] := by
    simp only [Ipv6Addr.octets, List.take_succ_cons, List.take_zero, segments_eq, List.cons.injEq,
      and_true, segment_eq_iff 0x2001 0x20 0x01 (by decide), segment_eq_iff 0 0 0 (by decide),
      and_assoc]
  simp only [embeddedV4, Ipv6Addr.toIpv4Mapped, nat64, compatible_iff, sixToFour, teredo]
  split_ifs <;> rfl

/-- The code reads the spelled address off its positions. -/
theorem embeddedV4_eq_some_iff (ip : Ipv6Addr) (v4 : Ipv4Addr) :
    embeddedV4 ip = some v4 ↔ Spells ip v4 := by
  have two : ip.octets.take 2 = (ip.octets.take 12).take 2 := by rw [List.take_take]; rfl
  have four : ip.octets.take 4 = (ip.octets.take 12).take 4 := by rw [List.take_take]; rfl
  rw [spells_iff, embeddedV4_eq, two, four]
  generalize ip.octets.take 12 = head
  split_ifs with mapped nat64 compatible sixToFour teredo
  · subst mapped
    simp
  · subst nat64
    simp
  · obtain ⟨rfl, unspecified, loopback⟩ := compatible
    simp [unspecified, loopback]
  · have first : head.take 4 ≠ [0x20, 0x01, 0, 0] := by
      intro other
      rw [show head.take 2 = (head.take 4).take 2 by rw [List.take_take]; rfl, other] at sixToFour
      cases sixToFour
    simp only [mapped, nat64, sixToFour, first, false_and, false_or, true_and, or_false,
      Option.some.injEq]
    tauto
  · simp only [mapped, nat64, sixToFour, teredo, false_and, false_or, true_and, Option.some.injEq]
    tauto
  · simp only [mapped, nat64, sixToFour, teredo, false_and, false_or, or_false, false_iff]
    tauto

/-! ### What passes -/

/-- In no refused block, and spelling no v4 address that is in one. -/
def Fetchable : IpAddr → Prop
  | .v4 ip => ∀ block ∈ refusedV4, ¬ inBlock ip.octets block
  | .v6 ip => (∀ block ∈ refusedV6, ¬ inBlock ip.octets block) ∧
      ∀ v4, Spells ip v4 → ∀ block ∈ refusedV4, ¬ inBlock v4.octets block

/-- A granted block covers the addresses in it, and a v4 block also their v6 spellings. -/
def Prefix.Covers (grant : Prefix) (ip : IpAddr) : Prop :=
  match grant.addr, ip with
  | .v4 p, .v4 x => inBlock x.octets (p.octets, grant.bits)
  | .v6 p, .v6 x => inBlock x.octets (p.octets, grant.bits)
  | .v4 p, .v6 x => ∃ v4, Spells x v4 ∧ inBlock v4.octets (p.octets, grant.bits)
  | .v6 _, .v4 _ => False

def Passes (allow : List Prefix) (ip : IpAddr) : Prop :=
  (∃ grant ∈ allow, grant.Covers ip) ∨ Fetchable ip

theorem classify_eq_none_iff (ip : IpAddr) : classify ip = none ↔ Fetchable ip := by
  cases ip with
  | v4 ip => exact classifyV4_eq_none_iff ip
  | v6 ip =>
    rw [classify, Option.or_eq_none_iff, Option.bind_eq_none_iff, classifyV6_eq_none_iff, and_comm]
    refine and_congr_right fun _ => forall_congr' fun v4 => ?_
    rw [embeddedV4_eq_some_iff, classifyV4_eq_none_iff]

/-- On addresses of one length a grant that fits is compared within bounds. -/
theorem matchesBits_covers (same : a.length = b.length) (fits : n ≤ 8 * a.length) :
    ∃ inside, matchesBits a b n = some inside ∧ (inside = true ↔ inBlock b (a, n)) :=
  ⟨_, matchesBits_eq same fits, by rw [decide_eq_true_eq]; exact eq_comm⟩

theorem contains_eq (grant : Prefix) (ip : IpAddr) :
    ∃ inside, grant.contains ip = some inside ∧ (inside = true ↔ grant.Covers ip) := by
  obtain ⟨addr, bits, fits⟩ := grant
  cases addr with
  | v4 p =>
    cases ip with
    | v4 x => exact matchesBits_covers rfl fits
    | v6 x =>
      cases carried : embeddedV4 x with
      | none =>
        refine ⟨false, by simp [Prefix.contains, carried], ?_⟩
        simp only [Bool.false_eq_true, Prefix.Covers, false_iff]
        rintro ⟨v4, spells, -⟩
        rw [(embeddedV4_eq_some_iff x v4).mpr spells] at carried
        cases carried
      | some v4 =>
        obtain ⟨inside, matched, covers⟩ :=
          matchesBits_covers (a := p.octets) (b := v4.octets) rfl fits
        refine ⟨inside, by simp [Prefix.contains, carried, matched], covers.trans ?_⟩
        have spelled := (embeddedV4_eq_some_iff x v4).mp carried
        constructor
        · intro within
          exact ⟨v4, spelled, within⟩
        · rintro ⟨other, spells, within⟩
          rw [(embeddedV4_eq_some_iff x other).mpr spells] at carried
          exact Option.some.inj carried ▸ within
  | v6 p =>
    cases ip with
    | v4 x => exact ⟨false, rfl, by simp [Prefix.Covers]⟩
    | v6 x => exact matchesBits_covers rfl fits

theorem anyContains_eq (ip : IpAddr) (allow : List Prefix) :
    ∃ granted, anyContains ip allow = some granted ∧
      (granted = true ↔ ∃ grant ∈ allow, grant.Covers ip) := by
  induction allow with
  | nil => exact ⟨false, rfl, by simp⟩
  | cons grant allow ih =>
    obtain ⟨inside, first, covers⟩ := contains_eq grant ip
    obtain ⟨granted, rest, some_⟩ := ih
    cases inside with
    | true => exact ⟨true, by simp [anyContains, first], by simpa using .inl (covers.mp rfl)⟩
    | false =>
      have outside : ¬ grant.Covers ip := fun within => Bool.false_ne_true (covers.mpr within)
      exact ⟨granted, by simp [anyContains, first, rest], by simp [some_, outside]⟩

open Classical in
/-- One loop keeps what passes, in order. -/
theorem filterLoop_eq (display : IpAddr → String) (allow : List Prefix) (addrs ok : List SocketAddr)
    (refused : Option String) :
    ∃ why, filterLoop display allow addrs ok refused =
      some (ok ++ addrs.filter (fun a => decide (Passes allow a.ip)), why) := by
  induction addrs generalizing ok refused with
  | nil => exact ⟨refused, by simp [filterLoop]⟩
  | cons a addrs ih =>
    cases verdict : classify a.ip with
    | none =>
      have passes : Passes allow a.ip := .inr ((classify_eq_none_iff _).mp verdict)
      obtain ⟨why, kept⟩ := ih (ok ++ [a]) refused
      exact ⟨why, by simp [filterLoop, verdict, kept, passes]⟩
    | some because =>
      have refused_ : ¬ Fetchable a.ip := fun fetchable => by
        rw [(classify_eq_none_iff _).mpr fetchable] at verdict
        cases verdict
      obtain ⟨granted, looked, covers⟩ := anyContains_eq a.ip allow
      have passes : Passes allow a.ip ↔ granted = true := by
        rw [Passes, covers, or_iff_left refused_]
      cases granted with
      | true =>
        obtain ⟨why, kept⟩ := ih (ok ++ [a]) refused
        exact ⟨why, by simp [filterLoop, verdict, looked, kept, passes]⟩
      | false =>
        obtain ⟨why, kept⟩ :=
          ih ok (some (refused.getD (display a.ip ++ " is " ++ because)))
        exact ⟨why, by simp [filterLoop, verdict, looked, kept, passes]⟩

open Classical in
/-- No grant indexes past an address. The filter keeps what is granted or fetchable, in order, and
fails if and only if nothing is kept. -/
theorem filter_guards (display : IpAddr → String) (addrs : List SocketAddr) (allow : List Prefix) :
    (∀ grant ∈ allow, ∀ ip, ∃ inside,
      grant.contains ip = some inside ∧ (inside = true ↔ grant.Covers ip)) ∧
    ∃ outcome, filter display addrs allow = some outcome ∧
      (∀ kept, outcome = .ok kept → kept = addrs.filter fun a => decide (Passes allow a.ip)) ∧
      ((∃ why, outcome = .error why) ↔ ∀ a ∈ addrs, ¬ Passes allow a.ip) := by
  refine ⟨fun grant _ ip => contains_eq grant ip, ?_⟩
  obtain ⟨why, looped⟩ := filterLoop_eq display allow addrs [] none
  rw [List.nil_append] at looped
  have none_kept : (addrs.filter fun a => decide (Passes allow a.ip)) = [] ↔
      ∀ a ∈ addrs, ¬ Passes allow a.ip := by
    simp [List.filter_eq_nil_iff]
  rw [← none_kept]
  by_cases empty : (addrs.filter fun a => decide (Passes allow a.ip)) = []
  · refine ⟨.error (why.getD "the name resolved to nothing"), by simp [filter, looped, empty], ?_, ?_⟩
    · intro kept wrong
      cases wrong
    · exact ⟨fun _ => empty, fun _ => ⟨_, rfl⟩⟩
  · refine ⟨.ok (addrs.filter fun a => decide (Passes allow a.ip)),
      by simp [filter, looped, empty], ?_, ?_⟩
    · intro kept same
      exact (Except.ok.inj same).symm
    · constructor
      · rintro ⟨_, wrong⟩
        cases wrong
      · intro none_
        exact absurd none_ empty

end DrStrange.Web
