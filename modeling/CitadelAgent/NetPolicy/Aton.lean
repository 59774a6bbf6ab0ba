import CitadelAgent.NetPolicy.Url

/-!
# How a resolver reads a host

Before it asks for a name, a resolver tries the host as an address, by a grammar far wider than the dotted quads:
`inet_aton` takes one to four parts, each decimal, octal or hexadecimal, and lets the last part fill the bytes that are left.

* `atonPart`, `inetAton` : that grammar, with the numbers it gives;
* `inetAton_dotted` : a dotted quad is the address it shows;
* `inetAton_of_parseHost` : of a host that `parseHost` accepts, nothing else is read as an address.
-/

namespace CitadelAgent.NetPolicy

/-! ## The grammar -/

def digitValue (c : Char) : Option Nat :=
  if c.isDigit then some (c.toNat - '0'.toNat)
  else if 'a' ≤ c ∧ c ≤ 'f' then some (c.toNat - 'a'.toNat + 10)
  else if 'A' ≤ c ∧ c ≤ 'F' then some (c.toNat - 'A'.toNat + 10)
  else none

/-- The number that digits of this base write after those of `value`. -/
def digitsValue (base : Nat) : Nat → Text → Option Nat
  | value, [] => some value
  | value, c :: rest =>
    match digitValue c with
    | some d => if d < base then digitsValue base (value * base + d) rest else none
    | none => none

/-- One part: hexadecimal after `0x`, octal after another `0`, else decimal. -/
def atonPart : Text → Option Nat
  | [] => none
  | '0' :: 'x' :: digits => digitsValue 16 0 digits
  | '0' :: 'X' :: digits => digitsValue 16 0 digits
  | '0' :: digits => digitsValue 8 0 digits
  | digits => digitsValue 10 0 digits

/-- The address that the parts make: a byte each, and the last fills the rest. -/
def atonAddress : List Nat → Option Nat
  | [a] => if a < 2 ^ 32 then some a else none
  | [a, b] => if a < 256 ∧ b < 2 ^ 24 then some (a * 2 ^ 24 + b) else none
  | [a, b, c] => if a < 256 ∧ b < 256 ∧ c < 2 ^ 16 then some ((a * 256 + b) * 2 ^ 16 + c) else none
  | [a, b, c, d] => if a < 256 ∧ b < 256 ∧ c < 256 ∧ d < 256 then some (((a * 256 + b) * 256 + c) * 256 + d) else none
  | _ => none

/-- `inet_aton`. -/
def inetAton (host : Text) : Option Nat := ((host.splitOn '.').mapM atonPart).bind atonAddress

/-! ## Dotted quads -/

theorem atonPart_octet (x : UInt8) : atonPart (Text.ofNat x.toNat) = some x.toNat := by
  have hall : ∀ n : Fin 256, atonPart (Text.ofNat n) = some (n : Nat) := by decide +kernel
  exact hall ⟨x.toNat, x.toNat_lt⟩

theorem splitOn_dotted (ip : Ipv4Addr) :
    ip.dotted.splitOn '.' = [Text.ofNat ip.a.toNat, Text.ofNat ip.b.toNat, Text.ofNat ip.c.toNat, Text.ofNat ip.d.toNat] := by
  have hdot : ∀ n, '.' ∉ Text.ofNat n := notMem_ofNat (by decide)
  unfold Ipv4Addr.dotted
  rw [List.splitOn_append_cons_self_of_not_mem (hdot _), List.splitOn_append_cons_self_of_not_mem (hdot _),
    List.splitOn_append_cons_self_of_not_mem (hdot _), List.splitOn_eq_singleton (hdot _)]

theorem inetAton_dotted (ip : Ipv4Addr) : inetAton ip.dotted = some ip.value := by
  have ha := ip.a.toNat_lt
  have hb := ip.b.toNat_lt
  have hc := ip.c.toNat_lt
  have hd := ip.d.toNat_lt
  rw [inetAton, splitOn_dotted]
  simp only [List.mapM_cons, List.mapM_nil, atonPart_octet, Option.pure_def, Option.bind_eq_bind, Option.bind_some, atonAddress]
  rw [if_pos ⟨ha, hb, hc, hd⟩, Ipv4Addr.value]

/-! ## Names -/

theorem digitsValue_of_mem {base : Nat} {c : Char} (hc : ∀ d, digitValue c = some d → base ≤ d) :
    ∀ (digits : Text) (value : Nat), c ∈ digits → digitsValue base value digits = none
  | [], _, h => absurd h List.not_mem_nil
  | x :: rest, value, h => by
    rw [digitsValue]
    rcases List.mem_cons.mp h with rfl | hrest
    · split
      · rename_i d hd
        rw [if_neg (Nat.not_lt.mpr (hc d hd))]
      · rfl
    · split
      · split_ifs
        · exact digitsValue_of_mem hc rest _ hrest
        · rfl
      · rfl

theorem digitValue_of_lowercase {c : Char} (h : isAsciiLowercase c = true) : ∀ d, digitValue c = some d → 10 ≤ d := by
  intro d hd
  have hnat : 97 ≤ c.toNat := by
    simp only [isAsciiLowercase, Bool.and_eq_true, decide_eq_true_eq] at h
    exact UInt32.le_iff_toNat_le.mp h.1
  unfold digitValue at hd
  split_ifs at hd with hdigit hlow hup
  · simp only [Char.isDigit, Bool.and_eq_true, decide_eq_true_eq] at hdigit
    have hle : c.toNat ≤ 57 := UInt32.le_iff_toNat_le.mp hdigit.2
    omega
  · rw [← Option.some.inj hd]
    omega
  · rw [← Option.some.inj hd]
    omega

theorem atonPart_of_lastLabel {label : Text} (hok : labelOk label = true) (hlast : lastLabelOk label = true) :
    atonPart label = none := by
  simp only [lastLabelOk, Bool.and_eq_true, List.any_eq_true, Bool.not_eq_true'] at hlast
  obtain ⟨⟨c, hc, hlower⟩, hhex⟩ := hlast
  have hdigit := digitValue_of_lowercase hlower
  have hnothex : ∀ rest, label ≠ '0' :: 'x' :: rest := by
    rintro rest rfl
    exact absurd hhex (by simp)
  have hnotupper : ∀ rest, label ≠ '0' :: 'X' :: rest := by
    rintro rest rfl
    simp only [labelOk, Bool.and_eq_true, List.all_eq_true] at hok
    exact absurd (hok.2 'X' (by simp)) (by decide)
  unfold atonPart
  split
  · rfl
  · exact absurd rfl (hnothex _)
  · exact absurd rfl (hnotupper _)
  · rename_i digits _ _
    refine digitsValue_of_mem (fun d hd => Nat.le_trans (by decide) (hdigit d hd)) _ _ ?_
    rcases List.mem_cons.mp hc with rfl | hrest
    · exact absurd hlower (by decide)
    · exact hrest
  · exact digitsValue_of_mem hdigit _ _ hc

theorem mapM_eq_none {α β : Type} {f : α → Option β} {a : α} (ha : f a = none) :
    ∀ {as : List α}, a ∈ as → as.mapM f = none
  | x :: rest, h => by
    rw [List.mapM_cons]
    rcases List.mem_cons.mp h with rfl | hrest
    · rw [ha]
      rfl
    · cases f x with
      | none => rfl
      | some b => simp [mapM_eq_none ha hrest]

/-- **No parser differential.** Of the hosts that `parseHost` accepts a resolver reads the dotted quads as addresses,
those they show, and no other. -/
theorem inetAton_of_parseHost {text host : Text} (h : parseHost text = .ok host) :
    inetAton host = (canonicalIpv4 host).map Ipv4Addr.value := by
  have h := (parseHost_eq_ok h).1
  have hfixed := parseHost_lower h
  unfold parseHost at h
  rw [hfixed] at h
  dsimp only at h
  split_ifs at h with hip hlen hlabels hlast
  · obtain ⟨ip, hip⟩ := Option.isSome_iff_exists.mp hip
    rw [hip, canonicalIpv4_iff.mp hip, inetAton_dotted]
    rfl
  · rw [Bool.not_eq_true, Option.isSome_eq_false_iff, Option.isNone_iff_eq_none] at hip
    simp only [Bool.not_eq_true', Bool.not_eq_false] at hlabels hlast
    obtain ⟨label, hlabel, hlastOk⟩ := (Option.any_eq_true _ _).mp hlast
    have hmem := List.mem_of_getLast? hlabel
    rw [hip, inetAton, mapM_eq_none (atonPart_of_lastLabel (List.all_eq_true.mp hlabels label hmem) hlastOk) hmem]
    rfl

end CitadelAgent.NetPolicy
