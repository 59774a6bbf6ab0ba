import CitadelAgent.Lib.Cidr

/-!
# Egress policy: what kind of address an IP is

`citadel-app-net-policy/src/ranges.rs`: `canonical`, `embeddedV4`, `classify` and the two first-match tables,
with the metadata endpoints of `decide.rs`.

What the ranges are is said apart from the tables, over the address as a number: `PrivateRange.Mem`,
`ForbiddenRange.Mem` from the ranges' own descriptions, and `Embeds` for an IPv4 address carried in an IPv6 one.

* `readings a` : the address itself, and the IPv4 address it embeds;
* `classify_public`, `classify_private` : what no reading of a public, or of a private, address lies in.
-/

namespace CitadelAgent.NetPolicy

open Lib

/-! ## Addresses -/

structure Ipv4Addr where
  a : UInt8
  b : UInt8
  c : UInt8
  d : UInt8
  deriving DecidableEq

structure Ipv6Addr where
  s0 : UInt16
  s1 : UInt16
  s2 : UInt16
  s3 : UInt16
  s4 : UInt16
  s5 : UInt16
  s6 : UInt16
  s7 : UInt16
  deriving DecidableEq

inductive IpAddr
  | v4 (ip : Ipv4Addr)
  | v6 (ip : Ipv6Addr)
  deriving DecidableEq

/-- `u32::from`. -/
def Ipv4Addr.bits (ip : Ipv4Addr) : BitVec 32 :=
  ip.a.toBitVec ++ ip.b.toBitVec ++ ip.c.toBitVec ++ ip.d.toBitVec

/-- `u128::from`. -/
def Ipv6Addr.bits (ip : Ipv6Addr) : BitVec 128 :=
  ip.s0.toBitVec ++ ip.s1.toBitVec ++ ip.s2.toBitVec ++ ip.s3.toBitVec ++
    ip.s4.toBitVec ++ ip.s5.toBitVec ++ ip.s6.toBitVec ++ ip.s7.toBitVec

/-! ## Classes -/

/-- Reachable only by host egress granted `private`. -/
inductive PrivateRange
  | loopback
  | rfc1918
  | linkLocal
  | shared
  | uniqueLocal
  | siteLocal
  deriving DecidableEq

inductive ForbiddenRange
  | thisNetwork
  | unspecified
  | ietfProtocol
  | benchmarking
  | documentation
  | multicast
  | reserved
  | ipv4Compatible
  | teredo
  | discard
  deriving DecidableEq

inductive AddressClass
  | public_
  | private_ (range : PrivateRange)
  | forbidden (range : ForbiddenRange)
  deriving DecidableEq

def low (hi lo : UInt16) : Ipv4Addr := ⟨(hi >>> 8).toUInt8, hi.toUInt8, (lo >>> 8).toUInt8, lo.toUInt8⟩

def embeddedV4 (ip : Ipv6Addr) : Option Ipv4Addr :=
  if [ip.s0, ip.s1, ip.s2, ip.s3, ip.s4] = [0, 0, 0, 0, 0] ∧ ip.s5 = 0xffff then some (low ip.s6 ip.s7)
  else if [ip.s0, ip.s1, ip.s2, ip.s3, ip.s4, ip.s5] = [0x64, 0xff9b, 0, 0, 0, 0] then some (low ip.s6 ip.s7)
  else if ip.s0 = 0x2002 then some (low ip.s1 ip.s2)
  else none

def canonical : IpAddr → IpAddr
  | .v4 ip => .v4 ip
  | .v6 ip => (embeddedV4 ip).elim (.v6 ip) .v4

def inV4 (ip net : Ipv4Addr) (width : Nat) : Bool := ip.bits &&& Cidr.mask 32 width == net.bits &&& Cidr.mask 32 width

def tableV4 : List (Ipv4Addr × Nat × AddressClass) := [
  (⟨0, 0, 0, 0⟩, 8, .forbidden .thisNetwork),
  (⟨10, 0, 0, 0⟩, 8, .private_ .rfc1918),
  (⟨100, 64, 0, 0⟩, 10, .private_ .shared),
  (⟨127, 0, 0, 0⟩, 8, .private_ .loopback),
  (⟨169, 254, 0, 0⟩, 16, .private_ .linkLocal),
  (⟨172, 16, 0, 0⟩, 12, .private_ .rfc1918),
  (⟨192, 0, 0, 0⟩, 24, .forbidden .ietfProtocol),
  (⟨192, 0, 2, 0⟩, 24, .forbidden .documentation),
  (⟨192, 88, 99, 0⟩, 24, .forbidden .reserved),
  (⟨192, 168, 0, 0⟩, 16, .private_ .rfc1918),
  (⟨198, 18, 0, 0⟩, 15, .forbidden .benchmarking),
  (⟨198, 51, 100, 0⟩, 24, .forbidden .documentation),
  (⟨203, 0, 113, 0⟩, 24, .forbidden .documentation),
  (⟨224, 0, 0, 0⟩, 4, .forbidden .multicast),
  (⟨240, 0, 0, 0⟩, 4, .forbidden .reserved),
  (⟨255, 255, 255, 255⟩, 32, .forbidden .reserved)]

def classifyV4 (ip : Ipv4Addr) : AddressClass :=
  ((tableV4.find? fun (net, width, _) => inV4 ip net width).map fun entry => entry.2.2).getD .public_

def inV6 (ip net : Ipv6Addr) (width : Nat) : Bool :=
  ip.bits &&& Cidr.mask 128 width == net.bits &&& Cidr.mask 128 width

def tableV6 : List (Ipv6Addr × Nat × AddressClass) := [
  (⟨0, 0, 0, 0, 0, 0, 0, 0⟩, 128, .forbidden .unspecified),
  (⟨0, 0, 0, 0, 0, 0, 0, 1⟩, 128, .private_ .loopback),
  (⟨0, 0, 0, 0, 0, 0, 0, 0⟩, 96, .forbidden .ipv4Compatible),
  (⟨0x64, 0xff9b, 1, 0, 0, 0, 0, 0⟩, 48, .forbidden .reserved),
  (⟨0x100, 0, 0, 0, 0, 0, 0, 0⟩, 64, .forbidden .discard),
  (⟨0x2001, 0xdb8, 0, 0, 0, 0, 0, 0⟩, 32, .forbidden .documentation),
  (⟨0x2001, 0, 0, 0, 0, 0, 0, 0⟩, 32, .forbidden .teredo),
  (⟨0x2000, 0, 0, 0, 0, 0, 0, 0⟩, 3, .public_),
  (⟨0xfc00, 0, 0, 0, 0, 0, 0, 0⟩, 7, .private_ .uniqueLocal),
  (⟨0xfe80, 0, 0, 0, 0, 0, 0, 0⟩, 10, .private_ .linkLocal),
  (⟨0xfec0, 0, 0, 0, 0, 0, 0, 0⟩, 10, .private_ .siteLocal),
  (⟨0xff00, 0, 0, 0, 0, 0, 0, 0⟩, 8, .forbidden .multicast)]

def classifyV6 (ip : Ipv6Addr) : AddressClass :=
  ((tableV6.find? fun (net, width, _) => inV6 ip net width).map fun entry => entry.2.2).getD (.forbidden .reserved)

def classify (ip : IpAddr) : AddressClass :=
  match canonical ip with
  | .v4 ip => classifyV4 ip
  | .v6 ip => classifyV6 ip

/-- Cloud metadata endpoints: AWS/GCP/Azure, Alibaba, AWS over IPv6. -/
def METADATA : List IpAddr := [
  .v4 ⟨169, 254, 169, 254⟩,
  .v4 ⟨100, 100, 100, 200⟩,
  .v6 ⟨0xfd00, 0xec2, 0, 0, 0, 0, 0, 0x254⟩]

/-! ## The ranges, as numbers -/

def Ipv4Addr.value (ip : Ipv4Addr) : Nat := ((ip.a.toNat * 256 + ip.b.toNat) * 256 + ip.c.toNat) * 256 + ip.d.toNat

def Ipv6Addr.value (ip : Ipv6Addr) : Nat :=
  ((((((ip.s0.toNat * 65536 + ip.s1.toNat) * 65536 + ip.s2.toNat) * 65536 + ip.s3.toNat) * 65536 +
    ip.s4.toNat) * 65536 + ip.s5.toNat) * 65536 + ip.s6.toNat) * 65536 + ip.s7.toNat

/-- `ip` is in `net/width`. -/
def Ipv4Addr.In (ip net : Ipv4Addr) (width : Nat) : Prop := ip.value / 2 ^ (32 - width) = net.value / 2 ^ (32 - width)

def Ipv6Addr.In (ip net : Ipv6Addr) (width : Nat) : Prop :=
  ip.value / 2 ^ (128 - width) = net.value / 2 ^ (128 - width)

/-- The three embeddings: mapped `::ffff:0:0/96`, NAT64 `64:ff9b::/96`, 6to4 `2002::/16`. -/
inductive Embeds (ip : Ipv6Addr) (carried : Ipv4Addr) : Prop
  | mapped (hin : ip.In ⟨0, 0, 0, 0, 0, 0xffff, 0, 0⟩ 96) (h : carried.value = ip.value % 2 ^ 32)
  | nat64 (hin : ip.In ⟨0x64, 0xff9b, 0, 0, 0, 0, 0, 0⟩ 96) (h : carried.value = ip.value % 2 ^ 32)
  | sixToFour (hin : ip.In ⟨0x2002, 0, 0, 0, 0, 0, 0, 0⟩ 16) (h : carried.value = ip.value / 2 ^ 80 % 2 ^ 32)

def PrivateRange.Mem : PrivateRange → IpAddr → Prop
  | .loopback, .v4 ip => ip.In ⟨127, 0, 0, 0⟩ 8
  | .loopback, .v6 ip => ip.In ⟨0, 0, 0, 0, 0, 0, 0, 1⟩ 128
  | .rfc1918, .v4 ip => ip.In ⟨10, 0, 0, 0⟩ 8 ∨ ip.In ⟨172, 16, 0, 0⟩ 12 ∨ ip.In ⟨192, 168, 0, 0⟩ 16
  | .linkLocal, .v4 ip => ip.In ⟨169, 254, 0, 0⟩ 16
  | .linkLocal, .v6 ip => ip.In ⟨0xfe80, 0, 0, 0, 0, 0, 0, 0⟩ 10
  | .shared, .v4 ip => ip.In ⟨100, 64, 0, 0⟩ 10
  | .uniqueLocal, .v6 ip => ip.In ⟨0xfc00, 0, 0, 0, 0, 0, 0, 0⟩ 7
  | .siteLocal, .v6 ip => ip.In ⟨0xfec0, 0, 0, 0, 0, 0, 0, 0⟩ 10
  | _, _ => False

/-- IPv6 blocks that are named for what they are: the private ones, the ones forbidden by name, the ones that
carry an IPv4 address. -/
def Named (ip : Ipv6Addr) : Prop :=
  ip.In ⟨0, 0, 0, 0, 0, 0, 0, 0⟩ 96 ∨ ip.In ⟨0, 0, 0, 0, 0, 0xffff, 0, 0⟩ 96 ∨
    ip.In ⟨0x64, 0xff9b, 0, 0, 0, 0, 0, 0⟩ 96 ∨ ip.In ⟨0x100, 0, 0, 0, 0, 0, 0, 0⟩ 64 ∨
    ip.In ⟨0xfc00, 0, 0, 0, 0, 0, 0, 0⟩ 7 ∨ ip.In ⟨0xfe80, 0, 0, 0, 0, 0, 0, 0⟩ 10 ∨
    ip.In ⟨0xfec0, 0, 0, 0, 0, 0, 0, 0⟩ 10 ∨ ip.In ⟨0xff00, 0, 0, 0, 0, 0, 0, 0⟩ 8

/-- The addresses in a forbidden range. Reserved takes in all of IPv6 outside `2000::/3` that has no other
name. -/
def ForbiddenRange.Mem : ForbiddenRange → IpAddr → Prop
  | .thisNetwork, .v4 ip => ip.In ⟨0, 0, 0, 0⟩ 8
  | .unspecified, .v6 ip => ip.In ⟨0, 0, 0, 0, 0, 0, 0, 0⟩ 128
  | .ietfProtocol, .v4 ip => ip.In ⟨192, 0, 0, 0⟩ 24
  | .benchmarking, .v4 ip => ip.In ⟨198, 18, 0, 0⟩ 15
  | .documentation, .v4 ip =>
    ip.In ⟨192, 0, 2, 0⟩ 24 ∨ ip.In ⟨198, 51, 100, 0⟩ 24 ∨ ip.In ⟨203, 0, 113, 0⟩ 24
  | .documentation, .v6 ip => ip.In ⟨0x2001, 0xdb8, 0, 0, 0, 0, 0, 0⟩ 32
  | .multicast, .v4 ip => ip.In ⟨224, 0, 0, 0⟩ 4
  | .multicast, .v6 ip => ip.In ⟨0xff00, 0, 0, 0, 0, 0, 0, 0⟩ 8
  | .reserved, .v4 ip => ip.In ⟨240, 0, 0, 0⟩ 4 ∨ ip.In ⟨192, 88, 99, 0⟩ 24
  | .reserved, .v6 ip =>
    ip.In ⟨0x64, 0xff9b, 1, 0, 0, 0, 0, 0⟩ 48 ∨ (¬ ip.In ⟨0x2000, 0, 0, 0, 0, 0, 0, 0⟩ 3 ∧ ¬ Named ip)
  | .ipv4Compatible, .v6 ip =>
    ip.In ⟨0, 0, 0, 0, 0, 0, 0, 0⟩ 96 ∧ ¬ ip.In ⟨0, 0, 0, 0, 0, 0, 0, 0⟩ 128 ∧ ¬ ip.In ⟨0, 0, 0, 0, 0, 0, 0, 1⟩ 128
  | .teredo, .v6 ip => ip.In ⟨0x2001, 0, 0, 0, 0, 0, 0, 0⟩ 32
  | .discard, .v6 ip => ip.In ⟨0x100, 0, 0, 0, 0, 0, 0, 0⟩ 64
  | _, _ => False

/-- `r` is one of the ways `address` is read: directly, or as the IPv4 address it embeds. -/
inductive Reading (address : IpAddr) : IpAddr → Prop
  | direct : Reading address address
  | embedded {ip : Ipv6Addr} {carried : Ipv4Addr} (h : address = .v6 ip) (hc : Embeds ip carried) :
    Reading address (.v4 carried)

/-! ## The tables are about those numbers -/

theorem Ipv4Addr.toNat_bits (ip : Ipv4Addr) : ip.bits.toNat = ip.value := by
  simp only [bits, value, Cidr.toNat_append_eq, UInt8.toNat_toBitVec, Nat.reducePow]

theorem Ipv6Addr.toNat_bits (ip : Ipv6Addr) : ip.bits.toNat = ip.value := by
  simp only [bits, value, Cidr.toNat_append_eq, UInt16.toNat_toBitVec, Nat.reducePow]

theorem inV4_iff {ip net : Ipv4Addr} {width : Nat} (h : width ≤ 32) : inV4 ip net width = true ↔ ip.In net width := by
  rw [inV4, beq_iff_eq, Cidr.and_mask_eq_iff h, Ipv4Addr.toNat_bits, Ipv4Addr.toNat_bits]
  rfl

variable {ip : Ipv6Addr} {address reading : IpAddr}

theorem inV6_iff {net : Ipv6Addr} {width : Nat} (h : width ≤ 128) : inV6 ip net width = true ↔ ip.In net width := by
  rw [inV6, beq_iff_eq, Cidr.and_mask_eq_iff h, Ipv6Addr.toNat_bits, Ipv6Addr.toNat_bits]
  rfl

theorem tableV4_width : ∀ entry ∈ tableV4, entry.2.1 ≤ 32 := by decide

theorem tableV6_width : ∀ entry ∈ tableV6, entry.2.1 ≤ 128 := by decide

theorem classifyV4_cases (ip : Ipv4Addr) :
    (classifyV4 ip = .public_ ∧ ∀ entry ∈ tableV4, ¬ ip.In entry.1 entry.2.1) ∨
      ∃ entry ∈ tableV4, ip.In entry.1 entry.2.1 ∧ classifyV4 ip = entry.2.2 := by
  unfold classifyV4
  cases h : tableV4.find? fun (net, width, _) => inV4 ip net width with
  | none =>
    refine .inl ⟨rfl, fun entry hmem hin => ?_⟩
    exact List.find?_eq_none.mp h entry hmem ((inV4_iff (tableV4_width entry hmem)).mpr hin)
  | some entry =>
    have hmem := List.mem_of_find?_eq_some h
    have hin := List.find?_some h
    exact .inr ⟨entry, hmem, (inV4_iff (tableV4_width entry hmem)).mp hin, rfl⟩

theorem classifyV6_cases (ip : Ipv6Addr) :
    classifyV6 ip = .forbidden .reserved ∨
      ∃ before entry after, tableV6 = before ++ entry :: after ∧ ip.In entry.1 entry.2.1 ∧
        (∀ e ∈ before, ¬ ip.In e.1 e.2.1) ∧ classifyV6 ip = entry.2.2 := by
  unfold classifyV6
  cases h : tableV6.find? fun (net, width, _) => inV6 ip net width with
  | none => exact .inl rfl
  | some entry =>
    obtain ⟨hin, before, after, hsplit, hbefore⟩ := List.find?_eq_some_iff_append.mp h
    have hwidth : ∀ e ∈ before ++ entry :: after, e.2.1 ≤ 128 := hsplit ▸ tableV6_width
    refine .inr ⟨before, entry, after, hsplit, (inV6_iff (hwidth entry (by simp))).mp hin, fun e he hin => ?_, rfl⟩
    have hnot : (!inV6 ip e.1 e.2.1) = true := hbefore e he
    rw [(inV6_iff (hwidth e (by simp [he]))).mpr hin] at hnot
    cases hnot

/-! ## What a class says -/

/-- The address is in the range its class names; a public one is in none. -/
def AddressClass.Holds : AddressClass → IpAddr → Prop
  | .public_, a => (∀ r : PrivateRange, ¬ r.Mem a) ∧ ∀ r : ForbiddenRange, ¬ r.Mem a
  | .private_ range, a => range.Mem a
  | .forbidden _, _ => True

theorem not_private_and_forbidden {p : PrivateRange} {f : ForbiddenRange} {a : IpAddr} (hp : p.Mem a) (hf : f.Mem a) :
    False := by
  cases a with
  | v4 ip =>
    cases p <;> simp only [PrivateRange.Mem, Ipv4Addr.In] at hp
    all_goals cases f <;> simp only [ForbiddenRange.Mem, Ipv4Addr.In] at hf
    all_goals generalize ip.value = v at *
    all_goals simp [Ipv4Addr.value] at hp hf
    all_goals omega
  | v6 ip =>
    cases p <;> simp only [PrivateRange.Mem, Ipv6Addr.In] at hp
    all_goals cases f <;> simp only [ForbiddenRange.Mem, Ipv6Addr.In, Named] at hf
    all_goals generalize ip.value = v at *
    all_goals simp [Ipv6Addr.value] at hp hf
    all_goals omega

theorem classifyV4_holds (ip : Ipv4Addr) : (classifyV4 ip).Holds (.v4 ip) := by
  rcases classifyV4_cases ip with ⟨hclass, hnone⟩ | ⟨entry, hmem, hin, hclass⟩
  · rw [hclass]
    simp only [tableV4, List.forall_mem_cons] at hnone
    refine ⟨fun r h => ?_, fun r h => ?_⟩
    · cases r <;> simp only [PrivateRange.Mem] at h <;> grind
    · cases r <;> simp only [ForbiddenRange.Mem] at h <;> grind
  · rw [hclass]
    simp only [tableV4, List.mem_cons, List.not_mem_nil, or_false] at hmem
    rcases hmem with rfl | rfl | rfl | rfl | rfl | rfl | rfl | rfl | rfl | rfl | rfl | rfl | rfl | rfl | rfl | rfl <;>
      simp_all [AddressClass.Holds, PrivateRange.Mem]

theorem classifyV6_public (h : classifyV6 ip = .public_) :
    ip.In ⟨0x2000, 0, 0, 0, 0, 0, 0, 0⟩ 3 ∧ ¬ ip.In ⟨0x2001, 0xdb8, 0, 0, 0, 0, 0, 0⟩ 32 ∧
      ¬ ip.In ⟨0x2001, 0, 0, 0, 0, 0, 0, 0⟩ 32 := by
  rcases classifyV6_cases ip with hclass | ⟨before, entry, after, hsplit, hin, hbefore, hclass⟩
  · rw [h] at hclass
    cases hclass
  have hentry : entry ∈ tableV6 := by simp [hsplit]
  have hpublic : ∀ e ∈ tableV6, e.2.2 = .public_ → e = (⟨0x2000, 0, 0, 0, 0, 0, 0, 0⟩, 3, .public_) := by decide
  obtain rfl := hpublic entry hentry (hclass.symm.trans h)
  -- a block after the public one in the table would be listed after it
  have hfirst : ∀ e ∈ tableV6, ¬ [(⟨0x2000, 0, 0, 0, 0, 0, 0, 0⟩, 3, .public_), e].Sublist tableV6 →
      e ≠ (⟨0x2000, 0, 0, 0, 0, 0, 0, 0⟩, 3, .public_) → e ∈ before := by
    intro e he hnot hne
    rw [hsplit] at he hnot
    rcases List.mem_append.mp he with he | he
    · exact he
    · rcases List.mem_cons.mp he with he | he
      · exact absurd he hne
      · refine absurd (List.Sublist.trans ?_ (List.sublist_append_right _ _)) hnot
        exact (List.singleton_sublist.mpr he).cons_cons _
  refine ⟨hin, ?_, ?_⟩
  · exact hbefore _ (hfirst (⟨0x2001, 0xdb8, 0, 0, 0, 0, 0, 0⟩, 32, .forbidden .documentation) (by decide) (by decide) (by decide))
  · exact hbefore _ (hfirst (⟨0x2001, 0, 0, 0, 0, 0, 0, 0⟩, 32, .forbidden .teredo) (by decide) (by decide) (by decide))

theorem classifyV6_holds (ip : Ipv6Addr) : (classifyV6 ip).Holds (.v6 ip) := by
  cases hc : classifyV6 ip with
  | public_ =>
    obtain ⟨hin, hdoc, hteredo⟩ := classifyV6_public hc
    unfold Ipv6Addr.In at hin hdoc hteredo
    refine ⟨fun r h => ?_, fun r h => ?_⟩
    · cases r <;> simp only [PrivateRange.Mem, Ipv6Addr.In] at h
      all_goals generalize ip.value = v at *
      all_goals simp [Ipv6Addr.value] at h hin
      all_goals omega
    · cases r <;> simp only [ForbiddenRange.Mem, Ipv6Addr.In, Named] at h
      all_goals generalize ip.value = v at *
      all_goals simp [Ipv6Addr.value] at h hin hdoc hteredo
      all_goals omega
  | private_ range =>
    rcases classifyV6_cases ip with hclass | ⟨before, entry, after, hsplit, hin, -, hclass⟩
    · rw [hc] at hclass
      cases hclass
    have hentry : entry ∈ tableV6 := by simp [hsplit]
    rw [hc] at hclass
    simp only [tableV6, List.mem_cons, List.not_mem_nil, or_false] at hentry
    rcases hentry with rfl | rfl | rfl | rfl | rfl | rfl | rfl | rfl | rfl | rfl | rfl | rfl <;>
      simp_all [AddressClass.Holds, PrivateRange.Mem]
  | forbidden range => trivial

/-! ## Embedded addresses -/

theorem Ipv4Addr.value_inj {x y : Ipv4Addr} (h : x.value = y.value) : x = y := by
  obtain ⟨a, b, c, d⟩ := x
  obtain ⟨a', b', c', d'⟩ := y
  have ha := a.toNat_lt
  have hb := b.toNat_lt
  have hc := c.toNat_lt
  have hd := d.toNat_lt
  have ha' := a'.toNat_lt
  have hb' := b'.toNat_lt
  have hc' := c'.toNat_lt
  have hd' := d'.toNat_lt
  simp only [value] at h
  have h1 : a = a' := UInt8.toNat_inj.mp (by omega)
  have h2 : b = b' := UInt8.toNat_inj.mp (by omega)
  have h3 : c = c' := UInt8.toNat_inj.mp (by omega)
  have h4 : d = d' := UInt8.toNat_inj.mp (by omega)
  rw [h1, h2, h3, h4]

theorem value_low (hi lo : UInt16) : (low hi lo).value = hi.toNat * 65536 + lo.toNat := by
  have hhi := hi.toNat_lt
  have hlo := lo.toNat_lt
  simp only [low, Ipv4Addr.value, UInt16.toNat_toUInt8, UInt16.toNat_shiftRight]
  simp only [UInt16.toNat_ofNat, Nat.reducePow, Nat.reduceMod, Nat.shiftRight_eq_div_pow]
  omega

section Segments

variable (ip : Ipv6Addr)

theorem segments_lt : ip.s0.toNat < 65536 ∧ ip.s1.toNat < 65536 ∧ ip.s2.toNat < 65536 ∧ ip.s3.toNat < 65536 ∧
    ip.s4.toNat < 65536 ∧ ip.s5.toNat < 65536 ∧ ip.s6.toNat < 65536 ∧ ip.s7.toNat < 65536 :=
  ⟨ip.s0.toNat_lt, ip.s1.toNat_lt, ip.s2.toNat_lt, ip.s3.toNat_lt, ip.s4.toNat_lt, ip.s5.toNat_lt, ip.s6.toNat_lt,
    ip.s7.toNat_lt⟩

theorem mapped_iff : ([ip.s0, ip.s1, ip.s2, ip.s3, ip.s4] = [0, 0, 0, 0, 0] ∧ ip.s5 = 0xffff) ↔
    ip.In ⟨0, 0, 0, 0, 0, 0xffff, 0, 0⟩ 96 := by
  obtain ⟨h0, h1, h2, h3, h4, h5, h6, h7⟩ := segments_lt ip
  simp only [List.cons.injEq, and_true, ← UInt16.toNat_inj, Ipv6Addr.In, Ipv6Addr.value, UInt16.toNat_ofNat,
    Nat.reducePow, Nat.reduceMod, Nat.reduceMul, Nat.reduceAdd, Nat.reduceSub, Nat.reduceDiv]
  omega

theorem nat64_iff : [ip.s0, ip.s1, ip.s2, ip.s3, ip.s4, ip.s5] = [0x64, 0xff9b, 0, 0, 0, 0] ↔
    ip.In ⟨0x64, 0xff9b, 0, 0, 0, 0, 0, 0⟩ 96 := by
  obtain ⟨h0, h1, h2, h3, h4, h5, h6, h7⟩ := segments_lt ip
  simp only [List.cons.injEq, and_true, ← UInt16.toNat_inj, Ipv6Addr.In, Ipv6Addr.value, UInt16.toNat_ofNat,
    Nat.reducePow, Nat.reduceMod, Nat.reduceMul, Nat.reduceAdd, Nat.reduceSub, Nat.reduceDiv]
  omega

theorem sixToFour_iff : ip.s0 = 0x2002 ↔ ip.In ⟨0x2002, 0, 0, 0, 0, 0, 0, 0⟩ 16 := by
  obtain ⟨h0, h1, h2, h3, h4, h5, h6, h7⟩ := segments_lt ip
  simp only [← UInt16.toNat_inj, Ipv6Addr.In, Ipv6Addr.value, UInt16.toNat_ofNat,
    Nat.reducePow, Nat.reduceMod, Nat.reduceMul, Nat.reduceAdd, Nat.reduceSub, Nat.reduceDiv]
  omega

theorem value_low_end : (low ip.s6 ip.s7).value = ip.value % 2 ^ 32 := by
  obtain ⟨h0, h1, h2, h3, h4, h5, h6, h7⟩ := segments_lt ip
  simp only [value_low, Ipv6Addr.value, Nat.reducePow]
  omega

theorem value_low_sixToFour : (low ip.s1 ip.s2).value = ip.value / 2 ^ 80 % 2 ^ 32 := by
  obtain ⟨h0, h1, h2, h3, h4, h5, h6, h7⟩ := segments_lt ip
  simp only [value_low, Ipv6Addr.value, Nat.reducePow]
  omega

end Segments

theorem embeddedV4_iff {carried : Ipv4Addr} : embeddedV4 ip = some carried ↔ Embeds ip carried := by
  constructor
  · intro h
    unfold embeddedV4 at h
    split_ifs at h with h1 h2 h3 <;> obtain rfl := Option.some.inj h
    · exact .mapped ((mapped_iff ip).mp h1) (value_low_end ip)
    · exact .nat64 ((nat64_iff ip).mp h2) (value_low_end ip)
    · exact .sixToFour ((sixToFour_iff ip).mp h3) (value_low_sixToFour ip)
  · rintro (⟨hin, h⟩ | ⟨hin, h⟩ | ⟨hin, h⟩)
    · rw [embeddedV4, if_pos ((mapped_iff ip).mpr hin), Ipv4Addr.value_inj ((value_low_end ip).trans h.symm)]
    · have hnot : ¬ ip.In ⟨0, 0, 0, 0, 0, 0xffff, 0, 0⟩ 96 := by
        unfold Ipv6Addr.In at *
        generalize ip.value = v at *
        simp [Ipv6Addr.value] at *
        omega
      rw [embeddedV4, if_neg (mt (mapped_iff ip).mp hnot), if_pos ((nat64_iff ip).mpr hin),
        Ipv4Addr.value_inj ((value_low_end ip).trans h.symm)]
    · have hnot : ¬ ip.In ⟨0, 0, 0, 0, 0, 0xffff, 0, 0⟩ 96 ∧ ¬ ip.In ⟨0x64, 0xff9b, 0, 0, 0, 0, 0, 0⟩ 96 := by
        unfold Ipv6Addr.In at *
        generalize ip.value = v at *
        simp [Ipv6Addr.value] at *
        omega
      rw [embeddedV4, if_neg (mt (mapped_iff ip).mp hnot.1), if_neg (mt (nat64_iff ip).mp hnot.2),
        if_pos ((sixToFour_iff ip).mpr hin), Ipv4Addr.value_inj ((value_low_sixToFour ip).trans h.symm)]

theorem Embeds.direct {carried : Ipv4Addr} (h : Embeds ip carried) :
    AddressClass.public_.Holds (.v6 ip) := by
  have hin : ip.In ⟨0, 0, 0, 0, 0, 0xffff, 0, 0⟩ 96 ∨ ip.In ⟨0x64, 0xff9b, 0, 0, 0, 0, 0, 0⟩ 96 ∨
      ip.In ⟨0x2002, 0, 0, 0, 0, 0, 0, 0⟩ 16 := by
    rcases h with ⟨hin, -⟩ | ⟨hin, -⟩ | ⟨hin, -⟩
    · exact .inl hin
    · exact .inr (.inl hin)
    · exact .inr (.inr hin)
  unfold Ipv6Addr.In at hin
  refine ⟨fun r hr => ?_, fun r hr => ?_⟩
  · cases r <;> simp only [PrivateRange.Mem, Ipv6Addr.In] at hr
    all_goals generalize ip.value = v at *
    all_goals simp [Ipv6Addr.value] at hr hin
    all_goals omega
  · cases r <;> simp only [ForbiddenRange.Mem, Ipv6Addr.In, Named] at hr
    all_goals generalize ip.value = v at *
    all_goals simp [Ipv6Addr.value] at hr hin
    all_goals omega

/-! ## The class of an address, whichever way it is read -/

theorem Reading.holds (h : Reading address reading) :
    (classify address).Holds reading ∨ AddressClass.public_.Holds reading := by
  cases h with
  | direct =>
    cases address with
    | v4 ip => exact .inl (classifyV4_holds ip)
    | v6 ip =>
      cases he : embeddedV4 ip with
      | none =>
        refine .inl ?_
        simp only [classify, canonical, he, Option.elim_none]
        exact classifyV6_holds ip
      | some carried => exact .inr (embeddedV4_iff.mp he).direct
  | @embedded ip carried haddr hc =>
    subst haddr
    refine .inl ?_
    simp only [classify, canonical, embeddedV4_iff.mpr hc, Option.elim_some]
    exact classifyV4_holds carried

theorem Reading.not_forbidden (h : Reading address reading)
    (hclass : ∀ r, classify address ≠ .forbidden r) (r : ForbiddenRange) : ¬ r.Mem reading := by
  rcases h.holds with hh | hh
  · cases hc : classify address with
    | public_ => rw [hc] at hh; exact hh.2 r
    | private_ p => rw [hc] at hh; exact fun hr => not_private_and_forbidden hh hr
    | forbidden f => exact absurd hc (hclass f)
  · exact hh.2 r

theorem Reading.not_private (h : Reading address reading) (hclass : classify address = .public_) (r : PrivateRange) : ¬ r.Mem reading := by
  rcases h.holds with hh | hh
  · rw [hclass] at hh
    exact hh.1 r
  · exact hh.1 r

theorem Reading.eq (h : Reading address reading) :
    reading = address ∨ reading = canonical address := by
  cases h with
  | direct => exact .inl rfl
  | @embedded ip carried haddr hc =>
    subst haddr
    exact .inr (by simp [canonical, embeddedV4_iff.mpr hc])

end CitadelAgent.NetPolicy
