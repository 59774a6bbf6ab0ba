import CitadelAgent.Lib.Result
import CitadelAgent.NetPolicy.Ranges

/-!
# Egress policy: the one URL shape

`citadel-app-net-policy/src/url.rs`: `TargetUrl.parse`, `splitHostPort`, `parsePort`, `parseHost` and
`canonicalIpv4`, with the limits of `lib.rs` they read. A text is its characters; `Text.len` counts the bytes of
its UTF-8 form, as `str::len` does.

* `canonicalIpv4_iff` : the dotted quads are exactly what is read as an address;
* `TargetUrl.Readable`, `readable_of_parse` : what `parse` promises of a target;
* `TargetUrl.Readable.parse_writeUrl` : a readable target is read back from its own text, if that is within the length limit.
-/

namespace CitadelAgent.NetPolicy

abbrev Text := List Char

namespace Text

/-- `str::len`. -/
def len (text : Text) : Nat := (text.map Char.utf8Size).sum

/-- `str::strip_prefix`. -/
def stripStart (text start : Text) : Option Text :=
  if start.isPrefixOf text then some (text.drop start.length) else none

/-- `str::rsplit_once`. -/
def rsplitOnce (c : Char) (text : Text) : Option (Text × Text) :=
  match text.reverse.dropWhile (· != c) with
  | [] => none
  | _ :: front => some (front.reverse, (text.reverse.takeWhile (· != c)).reverse)

/-- `str::to_ascii_lowercase`. -/
def toAsciiLowercase (text : Text) : Text := text.map Char.toLower

/-- The number an unsigned decimal text writes: `str::parse` before its range check. -/
def decimal (text : Text) : Nat := Nat.ofDigitChars 10 text 0

/-- A number as `format!` writes it. -/
def ofNat (n : Nat) : Text := Nat.toDigits 10 n

end Text

/-- `u8::is_ascii_graphic`, of a character: no byte of a character outside ASCII is one. -/
def isAsciiGraphic (c : Char) : Bool := decide ('!' ≤ c) && decide (c ≤ '~')

/-! ## Limits -/

def AGENT_PORT : UInt16 := 12345

def AGENT_LOOPBACK_HOST : Text := "local.avarok.net".toList

def DEFAULT_PORTS : List UInt16 := [443, 8443]

def MAX_HOSTS : Nat := 8

/-- The most redirects one request may follow, each decided again. -/
def MAX_REDIRECTS : UInt8 := 3

def MAX_REQUEST_BODY_BYTES : Nat := 4 * 1024 * 1024

def MAX_RESPONSE_BODY_BYTES : Nat := 16 * 1024 * 1024

def MAX_URL_BYTES : Nat := 8 * 1024

def MAX_REQUESTS_PER_MINUTE : Nat := 60

def MAX_HEADERS : Nat := 32

/-- A header's name and value together. -/
def MAX_HEADER_BYTES : Nat := 1024

/-! ## Parsing -/

inductive Scheme
  | https
  | http
  deriving DecidableEq

def Scheme.defaultPort : Scheme → UInt16
  | .https => 443
  | .http => 80

inductive UrlFault
  | tooLong
  | character
  | scheme
  | credentials
  | fragment
  | host
  | port
  deriving DecidableEq

structure TargetUrl where
  scheme : Scheme
  /-- Lowercase. -/
  host : Text
  /-- The explicit port or the scheme's default. -/
  port : UInt16
  pathAndQuery : Text
  deriving DecidableEq

def isDecimal (text : Text) : Bool := !text.isEmpty && text.all Char.isDigit

def leadingZero (text : Text) : Bool := decide (1 < text.length) && text.head? == some '0'

def octet (part : Text) : Option UInt8 :=
  if !isDecimal part || leadingZero part then none
  else if part.decimal ≤ 255 then some (UInt8.ofNat part.decimal) else none

/-- `a.b.c.d`, each part decimal 0..=255 without a leading zero. -/
def canonicalIpv4 (text : Text) : Option Ipv4Addr :=
  match text.splitOn '.' with
  | [a, b, c, d] =>
    match octet a, octet b, octet c, octet d with
    | some a, some b, some c, some d => some ⟨a, b, c, d⟩
    | _, _, _, _ => none
  | _ => none

def isAsciiLowercase (c : Char) : Bool := decide ('a' ≤ c) && decide (c ≤ 'z')

def labelOk (label : Text) : Bool :=
  !label.isEmpty && decide (label.len ≤ 63) && label.head? != some '-' && label.getLast? != some '-' &&
    label.all fun c => isAsciiLowercase c || c.isDigit || c == '-'

/-- No top-level name is numeric, and resolvers read `0x7f.1` or `2130706433` as addresses. -/
def lastLabelOk (label : Text) : Bool := label.any isAsciiLowercase && !"0x".toList.isPrefixOf label

/-- A DNS name of letter-digit-hyphen labels, or a dotted-quad IPv4 address in canonical decimal. -/
def parseHost (text : Text) : Except UrlFault Text :=
  let host := text.toAsciiLowercase
  if (canonicalIpv4 host).isSome then .ok host
  else if host.isEmpty || decide (253 < host.len) then .error .host
  else if !(host.splitOn '.').all labelOk then .error .host
  else if !((host.splitOn '.').getLast?.any lastLabelOk) then .error .host
  else .ok host

def parsePort (text : Text) : Except UrlFault UInt16 :=
  if !isDecimal text || leadingZero text then .error .port
  else if text.decimal = 0 ∨ 65535 < text.decimal then .error .port
  else .ok (UInt16.ofNat text.decimal)

/-- `host` or `host:port`, the host checked and lowercased. -/
def splitHostPort (authority : Text) : Except UrlFault (Text × Option UInt16) :=
  if authority.head? = some '[' then .error .host
  else
    match authority.rsplitOnce ':' with
    | some (host, port) => do
      let port ← parsePort port
      let host ← parseHost host
      return (host, some port)
    | none => do
      let host ← parseHost authority
      return (host, none)

def stripScheme (text : Text) : Except UrlFault (Scheme × Text) :=
  match text.stripStart "https://".toList with
  | some rest => .ok (.https, rest)
  | none =>
    match text.stripStart "http://".toList with
    | some rest => .ok (.http, rest)
    | none => .error .scheme

def endsAuthority (c : Char) : Bool := c == '/' || c == '?'

def pathOf (tail : Text) : Text :=
  match tail with
  | '?' :: query => "/?".toList ++ query
  | [] => "/".toList
  | tail => tail

def TargetUrl.parse (text : Text) : Except UrlFault TargetUrl :=
  if MAX_URL_BYTES < text.len then .error .tooLong
  else if !text.all (fun c => isAsciiGraphic c && c != '\\') then .error .character
  else if '#' ∈ text then .error .fragment
  else do
    let (scheme, rest) ← stripScheme text
    let authority := rest.takeWhile fun c => !endsAuthority c
    let tail := rest.dropWhile fun c => !endsAuthority c
    if '@' ∈ authority then .error .credentials
    else do
      let (host, port) ← splitHostPort authority
      return ⟨scheme, host, port.getD scheme.defaultPort, pathOf tail⟩

def Scheme.name : Scheme → Text
  | .https => "https".toList
  | .http => "http".toList

/-- `scheme://host:port` and what follows it, as `format!` writes them. -/
def writeUrl (target : TargetUrl) (rest : Text) : Text :=
  target.scheme.name ++ "://".toList ++ target.host ++ ':' :: (Text.ofNat target.port.toNat ++ rest)

def TargetUrl.ipLiteral (target : TargetUrl) : Option Ipv4Addr := canonicalIpv4 target.host

/-! ## Decimal texts -/

variable {c : Char} {text host name : Text} {port : Option UInt16}

namespace Text

theorem isDigit_of_mem_ofNat {n : Nat} (h : c ∈ ofNat n) : c.isDigit = true :=
  Nat.isDigit_of_mem_toDigits (by decide : 0 < 10) (by decide : 10 ≤ 10) h

theorem decimal_ofNat (n : Nat) : (ofNat n).decimal = n := Nat.ofDigitChars_ten_toDigits

theorem head?_ofNat {n : Nat} (h : 0 < n) : (ofNat n).head? ≠ some '0' := by
  induction n using Nat.strongRecOn with
  | ind n ih =>
    unfold ofNat
    rw [Nat.toDigits_eq_if (by decide : 1 < 10)]
    split
    · rename_i hlt
      interval_cases n <;> decide
    · rename_i hge
      have hne : Nat.toDigits 10 (n / 10) ≠ [] := Nat.toDigits_ne_nil
      rw [List.head?_append, Option.or_of_isSome (by simp [hne])]
      exact ih (n / 10) (by omega) (by omega)

theorem digitChar_of_isDigit (h : c.isDigit = true) : (c.toNat - '0'.toNat).digitChar = c := by
  have hval : 48 ≤ c.toNat ∧ c.toNat ≤ 57 := by
    simp only [Char.isDigit, Bool.and_eq_true, decide_eq_true_eq] at h
    exact ⟨UInt32.le_iff_toNat_le.mp h.1, UInt32.le_iff_toNat_le.mp h.2⟩
  obtain ⟨h1, h2⟩ := hval
  have hc : c = Char.ofNat c.toNat := (Char.ofNat_toNat c).symm
  generalize c.toNat = k at *
  subst hc
  interval_cases k <;> decide

end Text

theorem isDecimal_ofNat (n : Nat) : isDecimal (Text.ofNat n) = true := by
  have hne : (Text.ofNat n).isEmpty = false := by simp [Text.ofNat, Nat.toDigits_ne_nil]
  simp only [isDecimal, hne, Bool.not_false, Bool.true_and, List.all_eq_true]
  exact fun c hc => Text.isDigit_of_mem_ofNat hc

theorem leadingZero_ofNat (n : Nat) : leadingZero (Text.ofNat n) = false := by
  rcases Nat.eq_zero_or_pos n with rfl | h
  · decide
  · simp [leadingZero, Text.head?_ofNat h]

theorem ofNat_decimal (hd : isDecimal text = true) (hz : leadingZero text = false) :
    Text.ofNat text.decimal = text := by
  induction text using List.reverseRecOn with
  | nil => simp [isDecimal] at hd
  | append_singleton init c ih =>
    have hall : ∀ x ∈ init ++ [c], x.isDigit = true := by
      simp only [isDecimal, Bool.and_eq_true] at hd
      exact List.all_eq_true.mp hd.2
    have hc := hall c (by simp)
    have hlt : c.toNat - '0'.toNat < 10 := by
      have h := hc
      simp only [Char.isDigit, Bool.and_eq_true, decide_eq_true_eq] at h
      have h2 : c.toNat ≤ 57 := UInt32.le_iff_toNat_le.mp h.2
      have h0 : '0'.toNat = 48 := rfl
      omega
    cases init with
    | nil =>
      simp only [List.nil_append, Text.decimal, Nat.ofDigitChars_cons, Nat.ofDigitChars_nil, Text.ofNat]
      rw [Nat.mul_zero, Nat.zero_add, Nat.toDigits_of_lt_base hlt, Text.digitChar_of_isDigit hc]
    | cons d init =>
      have hd' : isDecimal (d :: init) = true := by
        simp only [isDecimal, List.isEmpty_cons, Bool.not_false, Bool.true_and, List.all_eq_true]
        exact fun x hx => hall x (List.mem_append_left _ hx)
      have hfirst : d ≠ '0' := by
        rintro rfl
        simp [leadingZero] at hz
      have hz' : leadingZero (d :: init) = false := by simp [leadingZero, hfirst]
      have ih := ih hd' hz'
      have hpos : 0 < Text.decimal (d :: init) := by
        rcases Nat.eq_zero_or_pos (Text.decimal (d :: init)) with h | h
        · rw [h] at ih
          exact absurd (List.cons.inj ih).1.symm hfirst
        · exact h
      have hval : Text.decimal (d :: init ++ [c]) = 10 * Text.decimal (d :: init) + (c.toNat - '0'.toNat) := by
        simp only [Text.decimal, Nat.ofDigitChars_append, Nat.ofDigitChars_cons, Nat.ofDigitChars_nil]
      rw [hval, Text.ofNat, ← Nat.toDigits_append_toDigits (by decide) hpos hlt, Nat.toDigits_of_lt_base hlt,
        Text.digitChar_of_isDigit hc]
      exact congrArg (· ++ [c]) ih

theorem octet_iff {part : Text} {x : UInt8} : octet part = some x ↔ part = Text.ofNat x.toNat := by
  unfold octet
  constructor
  · intro h
    split at h
    · cases h
    rename_i hform
    have hform : isDecimal part = true ∧ leadingZero part = false := by simpa using hform
    split at h
    · rename_i hle
      rw [← Option.some.inj h, UInt8.toNat_ofNat', Nat.mod_eq_of_lt (by omega), ofNat_decimal hform.1 hform.2]
    · cases h
  · rintro rfl
    have hx := x.toNat_lt
    rw [isDecimal_ofNat, leadingZero_ofNat, Text.decimal_ofNat]
    simp only [Bool.not_true, Bool.or_self, Bool.false_eq_true, if_false]
    rw [if_pos (by omega), UInt8.ofNat_toNat]

/-- `a.b.c.d`. -/
def Ipv4Addr.dotted (ip : Ipv4Addr) : Text :=
  Text.ofNat ip.a.toNat ++ '.' :: (Text.ofNat ip.b.toNat ++ '.' :: (Text.ofNat ip.c.toNat ++ '.' :: Text.ofNat ip.d.toNat))

theorem notMem_ofNat (hc : c.isDigit = false) (n : Nat) : c ∉ Text.ofNat n := by
  intro h
  simp [Text.isDigit_of_mem_ofNat h] at hc

theorem canonicalIpv4_iff {ip : Ipv4Addr} : canonicalIpv4 text = some ip ↔ text = ip.dotted := by
  constructor
  · intro h
    unfold canonicalIpv4 at h
    split at h
    · rename_i a b c d hsplit
      split at h
      · rename_i a' b' c' d' ha hb hc hd
        rw [← Option.some.inj h]
        have hjoin : ['.'].intercalate (text.splitOn '.') = text := List.intercalate_splitOn '.'
        rw [hsplit, octet_iff.mp ha, octet_iff.mp hb, octet_iff.mp hc, octet_iff.mp hd] at hjoin
        rw [← hjoin]
        simp [List.intercalate, Ipv4Addr.dotted]
      · cases h
    · cases h
  · rintro rfl
    have hdot : ∀ n, '.' ∉ Text.ofNat n := notMem_ofNat (by decide)
    have hsplit : ip.dotted.splitOn '.' = [Text.ofNat ip.a.toNat, Text.ofNat ip.b.toNat, Text.ofNat ip.c.toNat,
        Text.ofNat ip.d.toNat] := by
      unfold Ipv4Addr.dotted
      rw [List.splitOn_append_cons_self_of_not_mem (hdot _), List.splitOn_append_cons_self_of_not_mem (hdot _),
        List.splitOn_append_cons_self_of_not_mem (hdot _), List.splitOn_eq_singleton (hdot _)]
    unfold canonicalIpv4
    rw [hsplit]
    simp only [octet_iff.mpr rfl]

/-! ## Reading a target back -/

def isHostChar (c : Char) : Bool := isAsciiLowercase c || c.isDigit || c == '-' || c == '.'

theorem mem_intercalate {d : Char} {parts : List Text} (h : c ∈ [d].intercalate parts) :
    c = d ∨ ∃ part ∈ parts, c ∈ part := by
  induction parts with
  | nil => simp at h
  | cons part parts ih =>
    cases parts with
    | nil => exact .inr ⟨part, by simp, by simpa using h⟩
    | cons next rest =>
      rw [List.intercalate_cons_cons] at h
      simp only [List.mem_append, List.mem_singleton] at h
      rcases h with (h | h) | h
      · exact .inr ⟨part, by simp, h⟩
      · exact .inl h
      · rcases ih h with h | ⟨p, hp, hc⟩
        · exact .inl h
        · exact .inr ⟨p, List.mem_cons_of_mem _ hp, hc⟩

theorem isHostChar_dotted {ip : Ipv4Addr} (h : c ∈ ip.dotted) : isHostChar c = true := by
  have hdigit : ∀ n, c ∈ Text.ofNat n → isHostChar c = true := by
    intro n hc
    simp [isHostChar, Text.isDigit_of_mem_ofNat hc]
  simp only [Ipv4Addr.dotted, List.mem_append, List.mem_cons] at h
  rcases h with h | rfl | h | rfl | h | rfl | h
  · exact hdigit _ h
  · decide
  · exact hdigit _ h
  · decide
  · exact hdigit _ h
  · decide
  · exact hdigit _ h

theorem isHostChar_labels (h : (host.splitOn '.').all labelOk = true) (hc : c ∈ host) :
    isHostChar c = true := by
  have hjoin : ['.'].intercalate (host.splitOn '.') = host := List.intercalate_splitOn '.'
  rw [← hjoin] at hc
  rcases mem_intercalate hc with rfl | ⟨label, hlabel, hc⟩
  · decide
  · have hok := List.all_eq_true.mp h label hlabel
    simp only [labelOk, Bool.and_eq_true, List.all_eq_true] at hok
    have hc := hok.2 c hc
    simp only [isHostChar, Bool.or_eq_true] at hc ⊢
    exact .inl hc

theorem isHostChar_toNat (h : isHostChar c = true) :
    45 ≤ c.toNat ∧ c.toNat ≤ 57 ∨ 97 ≤ c.toNat ∧ c.toNat ≤ 122 := by
  simp only [isHostChar, isAsciiLowercase, Char.isDigit, Bool.or_eq_true, Bool.and_eq_true, decide_eq_true_eq,
    beq_iff_eq, Char.le_def, UInt32.le_iff_toNat_le, ge_iff_le] at h
  rcases h with ((h | h) | rfl) | rfl
  · exact .inr h
  · exact .inl ⟨le_trans (by decide) h.1, h.2⟩
  · decide
  · decide

theorem toLower_isHostChar (h : isHostChar c = true) : c.toLower = c := by
  have hnat := isHostChar_toNat h
  have hnot : ¬ (c.val ≥ 'A'.val ∧ c.val ≤ 'Z'.val) := by
    rintro ⟨h1, h2⟩
    have h1 : 65 ≤ c.toNat := UInt32.le_iff_toNat_le.mp h1
    have h2 : c.toNat ≤ 90 := UInt32.le_iff_toNat_le.mp h2
    omega
  unfold Char.toLower
  rw [dif_neg hnot]

theorem parseHost_eq_ok (h : parseHost text = .ok host) :
    parseHost host = .ok host ∧ ∀ c ∈ host, isHostChar c = true := by
  have hlower : host = text.toAsciiLowercase ∧ ∀ c ∈ host, isHostChar c = true := by
    unfold parseHost at h
    dsimp only at h
    split at h
    · rename_i hip
      obtain rfl := Except.ok.inj h
      obtain ⟨ip, hip⟩ := Option.isSome_iff_exists.mp hip
      rw [canonicalIpv4_iff] at hip
      exact ⟨rfl, fun c hc => isHostChar_dotted (hip ▸ hc)⟩
    split at h
    · cases h
    split at h
    · cases h
    rename_i hlabels
    split at h
    · cases h
    obtain rfl := Except.ok.inj h
    exact ⟨rfl, fun c hc => isHostChar_labels (by simpa using hlabels) hc⟩
  refine ⟨?_, hlower.2⟩
  have hfixed : host.toAsciiLowercase = host := by
    unfold Text.toAsciiLowercase
    conv_rhs => rw [← List.map_id host]
    exact List.map_congr_left fun c hc => toLower_isHostChar (hlower.2 c hc)
  unfold parseHost at h ⊢
  rw [hfixed]
  rwa [← hlower.1] at h

theorem parsePort_ofNat {port : UInt16} (h : 0 < port.toNat) : parsePort (Text.ofNat port.toNat) = .ok port := by
  unfold parsePort
  have hlt := port.toNat_lt
  rw [isDecimal_ofNat, leadingZero_ofNat, Text.decimal_ofNat]
  simp only [Bool.not_true, Bool.or_self, Bool.false_eq_true, if_false]
  rw [if_neg (by omega), UInt16.ofNat_toNat]

theorem parsePort_eq_ok {port : UInt16} (h : parsePort text = .ok port) :
    0 < port.toNat ∧ text = Text.ofNat port.toNat := by
  unfold parsePort at h
  split_ifs at h with hform hrange
  have hform : isDecimal text = true ∧ leadingZero text = false := by simpa using hform
  have hvalue : port.toNat = text.decimal := by
    rw [← Except.ok.inj h, UInt16.toNat_ofNat', Nat.mod_eq_of_lt (by omega)]
  exact ⟨by omega, by rw [hvalue, ofNat_decimal hform.1 hform.2]⟩

theorem Text.rsplitOnce_append {front back : Text} (h : c ∉ back) :
    (front ++ c :: back).rsplitOnce c = some (front, back) := by
  have hback : ∀ x ∈ back.reverse, (x != c) = true := by
    intro x hx
    simp only [bne_iff_ne]
    rintro rfl
    exact h (List.mem_reverse.mp hx)
  have hrev : (front ++ c :: back).reverse = back.reverse ++ c :: front.reverse := by simp
  unfold Text.rsplitOnce
  rw [hrev, List.dropWhile_append_of_pos hback, List.takeWhile_append_of_pos hback]
  simp

theorem Text.rsplitOnce_eq_some {front back : Text} (h : text.rsplitOnce c = some (front, back)) :
    text = front ++ c :: back := by
  have hsplit := List.takeWhile_append_dropWhile (p := (· != c)) (l := text.reverse)
  have hstart := List.head?_dropWhile_not (· != c) text.reverse
  unfold Text.rsplitOnce at h
  cases hdrop : text.reverse.dropWhile (· != c) with
  | nil =>
    rw [hdrop] at h
    cases h
  | cons d rest =>
    rw [hdrop] at h hsplit hstart
    obtain rfl : d = c := by simpa using hstart
    obtain ⟨rfl, rfl⟩ := Prod.mk.inj (Option.some.inj h)
    simpa using (congrArg List.reverse hsplit).symm

theorem Text.rsplitOnce_eq_none (h : c ∉ text) : text.rsplitOnce c = none := by
  have hdrop : text.reverse.dropWhile (· != c) = [] := by
    rw [List.dropWhile_eq_nil_iff]
    intro x hx
    simp only [bne_iff_ne]
    rintro rfl
    exact h (List.mem_reverse.mp hx)
  rw [Text.rsplitOnce, hdrop]

/-- What `parse` promises of a target. -/
structure TargetUrl.Readable (target : TargetUrl) : Prop where
  host : parseHost target.host = .ok target.host
  port : 0 < target.port.toNat
  path : ∃ rest, target.pathAndQuery = '/' :: rest
  plain : ∀ c ∈ target.pathAndQuery, isAsciiGraphic c = true ∧ c ≠ '\\' ∧ c ≠ '#'

theorem stripStart_eq_some {start rest : Text} (h : text.stripStart start = some rest) : text = start ++ rest := by
  unfold Text.stripStart at h
  split at h
  · rename_i hstart
    obtain ⟨tail, rfl⟩ := List.isPrefixOf_iff_prefix.mp hstart
    rw [List.drop_left] at h
    rw [Option.some.inj h]
  · cases h

theorem mem_of_stripScheme {rest : Text} {scheme : Scheme} (h : stripScheme text = .ok (scheme, rest)) (hc : c ∈ rest) : c ∈ text := by
  unfold stripScheme at h
  split at h
  · rename_i r hr
    obtain ⟨rfl, rfl⟩ := Prod.mk.inj (Except.ok.inj h)
    rw [stripStart_eq_some hr]
    exact List.mem_append_right _ hc
  split at h
  · rename_i r hr
    obtain ⟨rfl, rfl⟩ := Prod.mk.inj (Except.ok.inj h)
    rw [stripStart_eq_some hr]
    exact List.mem_append_right _ hc
  · cases h

/-- `:port`, where there is one. -/
def portText (port : Option UInt16) : Text := port.elim [] fun p => ':' :: Text.ofNat p.toNat

/-- **What `splitHostPort` reads is a host, as it was given, and the text of its port.** -/
theorem splitHostPort_eq_ok {authority : Text} (h : splitHostPort authority = .ok (host, port)) :
    ∃ name, authority = name ++ portText port ∧ parseHost name = .ok host ∧ ∀ p, port = some p → 0 < p.toNat := by
  unfold splitHostPort at h
  split at h
  · cases h
  split at h
  · rename_i name text hsplit
    obtain ⟨p, hp, h⟩ := Result.bind_eq_ok.mp h
    obtain ⟨read, hread, h⟩ := Result.bind_eq_ok.mp h
    obtain ⟨rfl, rfl⟩ := Prod.mk.inj (Except.ok.inj h)
    obtain ⟨hpos, rfl⟩ := parsePort_eq_ok hp
    refine ⟨name, Text.rsplitOnce_eq_some hsplit, hread, fun q hq => ?_⟩
    obtain rfl := Option.some.inj hq
    exact hpos
  · obtain ⟨read, hread, h⟩ := Result.bind_eq_ok.mp h
    obtain ⟨rfl, rfl⟩ := Prod.mk.inj (Except.ok.inj h)
    exact ⟨authority, by simp [portText], hread, fun q hq => by cases hq⟩

theorem pathOf_dropWhile (rest : Text) :
    (∃ tail, pathOf (rest.dropWhile fun c => !endsAuthority c) = '/' :: tail) ∧
      ∀ c ∈ pathOf (rest.dropWhile fun c => !endsAuthority c), c ∈ rest ∨ c = '/' ∨ c = '?' := by
  have hmem : ∀ c ∈ rest.dropWhile fun c => !endsAuthority c, c ∈ rest :=
    fun c hc => (List.dropWhile_sublist _).subset hc
  have hstart := List.head?_dropWhile_not (fun c => !endsAuthority c) rest
  generalize rest.dropWhile (fun c => !endsAuthority c) = tail at hmem hstart ⊢
  match tail with
  | [] => exact ⟨⟨[], rfl⟩, fun c hc => .inr (.inl (by simpa [pathOf] using hc))⟩
  | d :: query =>
    have hd : d = '/' ∨ d = '?' := by simpa [endsAuthority, or_iff_not_imp_left] using hstart
    rcases hd with rfl | rfl
    · exact ⟨⟨query, rfl⟩, fun c hc => .inl (hmem c hc)⟩
    · refine ⟨⟨'?' :: query, rfl⟩, fun c hc => ?_⟩
      have hc : c = '/' ∨ c = '?' ∨ c ∈ query := by simpa [pathOf] using hc
      rcases hc with h | h | h
      · exact .inr (.inl h)
      · exact .inr (.inr h)
      · exact .inl (hmem c (List.mem_cons_of_mem _ h))

theorem readable_of_parse {target : TargetUrl} (h : TargetUrl.parse text = .ok target) :
    target.Readable := by
  unfold TargetUrl.parse at h
  split at h
  · cases h
  split at h
  · cases h
  rename_i hplain
  split at h
  · cases h
  rename_i hfragment
  obtain ⟨⟨scheme, rest⟩, hscheme, h⟩ := Result.bind_eq_ok.mp h
  dsimp only at h
  split at h
  · cases h
  obtain ⟨⟨host, port⟩, hsplit, h⟩ := Result.bind_eq_ok.mp h
  obtain rfl := Except.ok.inj h
  obtain ⟨name, -, hname, hport⟩ := splitHostPort_eq_ok hsplit
  have hhost := (parseHost_eq_ok hname).1
  have hplain : ∀ c ∈ text, isAsciiGraphic c = true ∧ c ≠ '\\' := by simpa using hplain
  obtain ⟨hpath, hchars⟩ := pathOf_dropWhile rest
  refine ⟨hhost, ?_, hpath, fun c hc => ?_⟩
  · cases port with
    | some p => exact hport p rfl
    | none =>
      have hdefault : ∀ scheme : Scheme, 0 < scheme.defaultPort.toNat := by
        intro scheme
        cases scheme <;> decide
      exact hdefault scheme
  · rcases hchars c hc with hc | rfl | rfl
    · have hc := mem_of_stripScheme hscheme hc
      exact ⟨(hplain c hc).1, (hplain c hc).2, fun heq => hfragment (heq ▸ hc)⟩
    · decide
    · decide

/-! An absolute URL from its parts. -/

def isAuthorityChar (c : Char) : Bool := isHostChar c.toLower || c == ':'

theorem ne_of_isAuthorityChar {d : Char} (h : isAuthorityChar c = true) (hd : isAuthorityChar d = false) : c ≠ d := by
  rintro rfl
  rw [h] at hd
  cases hd

theorem isAuthorityChar_of_isHostChar (h : isHostChar c = true) : isAuthorityChar c = true := by
  rw [isAuthorityChar, toLower_isHostChar h, h]
  rfl

theorem isAsciiGraphic_isAuthorityChar (h : isAuthorityChar c = true) : isAsciiGraphic c = true := by
  have hnat : 33 ≤ c.toNat ∧ c.toNat ≤ 126 := by
    simp only [isAuthorityChar, Bool.or_eq_true, beq_iff_eq] at h
    rcases h with h | rfl
    · have hlower := isHostChar_toNat h
      by_cases hup : c.val ≥ 'A'.val ∧ c.val ≤ 'Z'.val
      · have h1 : 65 ≤ c.toNat := UInt32.le_iff_toNat_le.mp hup.1
        have h2 : c.toNat ≤ 90 := UInt32.le_iff_toNat_le.mp hup.2
        omega
      · rw [Char.toLower, dif_neg hup] at hlower
        omega
    · decide
  simp only [isAsciiGraphic, Bool.and_eq_true, decide_eq_true_eq, Char.le_def, UInt32.le_iff_toNat_le]
  exact hnat

theorem isAuthorityChar_portText (hc : c ∈ portText port) : isAuthorityChar c = true := by
  cases port with
  | none => simp [portText] at hc
  | some p =>
    rcases List.mem_cons.mp hc with rfl | hc
    · decide
    · exact isAuthorityChar_of_isHostChar (by simp [isHostChar, Text.isDigit_of_mem_ofNat hc])

theorem parseHost_lower (h : parseHost text = .ok host) : text.toAsciiLowercase = host := by
  unfold parseHost at h
  dsimp only at h
  split_ifs at h <;> exact Except.ok.inj h

theorem isAuthorityChar_of_parseHost (h : parseHost name = .ok host) (hc : c ∈ name) :
    isAuthorityChar c = true := by
  have hmem : c.toLower ∈ host := by
    rw [← parseHost_lower h]
    exact List.mem_map_of_mem hc
  rw [isAuthorityChar, (parseHost_eq_ok h).2 _ hmem]
  rfl

theorem notMem_of_parseHost (h : parseHost name = .ok host) : ':' ∉ name := by
  intro hc
  have hmem : ':'.toLower ∈ name.toAsciiLowercase := List.mem_map_of_mem hc
  rw [parseHost_lower h] at hmem
  exact absurd ((parseHost_eq_ok h).2 _ hmem) (by decide)

theorem mem_authority {authority : Text} (h : splitHostPort authority = .ok (host, port)) :
    ∀ c ∈ authority, isAuthorityChar c = true := by
  obtain ⟨name, rfl, hname, -⟩ := splitHostPort_eq_ok h
  intro c hc
  rcases List.mem_append.mp hc with hc | hc
  · exact isAuthorityChar_of_parseHost hname hc
  · exact isAuthorityChar_portText hc

theorem splitHostPort_portText (h : parseHost name = .ok host)
    (hport : ∀ p, port = some p → 0 < p.toNat) : splitHostPort (name ++ portText port) = .ok (host, port) := by
  have hhead : (name ++ portText port).head? ≠ some '[' := by
    intro hhead
    rcases List.mem_append.mp (List.mem_of_head? hhead) with hc | hc
    · exact absurd (isAuthorityChar_of_parseHost h hc) (by decide)
    · exact absurd (isAuthorityChar_portText hc) (by decide)
  rw [splitHostPort, if_neg hhead]
  cases port with
  | none =>
    rw [portText, Option.elim_none, List.append_nil, Text.rsplitOnce_eq_none (notMem_of_parseHost h)]
    dsimp only
    rw [h]
    rfl
  | some p =>
    rw [portText, Option.elim_some, Text.rsplitOnce_append (notMem_ofNat (by decide) _)]
    dsimp only
    rw [parsePort_ofNat (hport p rfl), h]
    rfl

section parts

variable {authority tail host : Text} {port : Option UInt16}

theorem stripScheme_parts (scheme : Scheme) (rest : Text) :
    stripScheme (scheme.name ++ "://".toList ++ rest) = .ok (scheme, rest) := by
  cases scheme with
  | https => simp [stripScheme, Text.stripStart, Scheme.name]
  | http => simp [stripScheme, Text.stripStart, Scheme.name]

theorem span_authority (hauthority : ∀ c ∈ authority, isAuthorityChar c = true)
    (htail : ∀ c, tail.head? = some c → endsAuthority c = true) :
    ((authority ++ tail).takeWhile fun c => !endsAuthority c) = authority ∧
      ((authority ++ tail).dropWhile fun c => !endsAuthority c) = tail := by
  have hin : ∀ c ∈ authority, (!endsAuthority c) = true := by
    intro c hc
    simp only [endsAuthority, Bool.not_eq_true', Bool.or_eq_false_iff, beq_eq_false_iff_ne]
    exact ⟨ne_of_isAuthorityChar (hauthority c hc) (by decide), ne_of_isAuthorityChar (hauthority c hc) (by decide)⟩
  rw [List.takeWhile_append_of_pos hin, List.dropWhile_append_of_pos hin]
  cases tail with
  | nil => simp
  | cons c rest => simp [htail c rfl]

theorem plain_parts (scheme : Scheme) (hauthority : ∀ c ∈ authority, isAuthorityChar c = true)
    (hplain : ∀ c ∈ tail, isAsciiGraphic c = true ∧ c ≠ '\\' ∧ c ≠ '#') :
    ∀ c ∈ scheme.name ++ "://".toList ++ (authority ++ tail), isAsciiGraphic c = true ∧ c ≠ '\\' ∧ c ≠ '#' := by
  intro c hc
  rcases List.mem_append.mp hc with hc | hc
  · have hscheme : (scheme.name ++ "://".toList).all (fun d => isAsciiGraphic d && d != '\\' && d != '#') = true := by
      cases scheme <;> decide
    simpa [and_assoc] using List.all_eq_true.mp hscheme c hc
  rcases List.mem_append.mp hc with hc | hc
  · have hchar := hauthority c hc
    exact ⟨isAsciiGraphic_isAuthorityChar hchar, ne_of_isAuthorityChar hchar (by decide),
      ne_of_isAuthorityChar hchar (by decide)⟩
  · exact hplain c hc

theorem parse_parts (scheme : Scheme) (hsplit : splitHostPort authority = .ok (host, port))
    (htail : ∀ c, tail.head? = some c → endsAuthority c = true)
    (hplain : ∀ c ∈ tail, isAsciiGraphic c = true ∧ c ≠ '\\' ∧ c ≠ '#') :
    TargetUrl.parse (scheme.name ++ "://".toList ++ (authority ++ tail)) =
      if MAX_URL_BYTES < Text.len (scheme.name ++ "://".toList ++ (authority ++ tail)) then .error .tooLong
      else .ok ⟨scheme, host, port.getD scheme.defaultPort, pathOf tail⟩ := by
  have hauthority := mem_authority hsplit
  have hchars := plain_parts scheme hauthority hplain
  obtain ⟨htake, hdrop⟩ := span_authority hauthority htail
  have hcredentials : '@' ∉ authority := fun hc => absurd (hauthority _ hc) (by decide)
  have hstrip := stripScheme_parts scheme (authority ++ tail)
  generalize scheme.name ++ "://".toList ++ (authority ++ tail) = text at hchars hstrip ⊢
  have hgraphic : text.all (fun c => isAsciiGraphic c && c != '\\') = true := by
    simp only [List.all_eq_true, Bool.and_eq_true, bne_iff_ne]
    exact fun c hc => ⟨(hchars c hc).1, (hchars c hc).2.1⟩
  have hfragment : '#' ∉ text := fun hc => (hchars '#' hc).2.2 rfl
  unfold TargetUrl.parse
  simp only [hgraphic, hstrip, Bool.not_true, Bool.false_eq_true, if_false, if_neg hfragment, Result.ok_bind, htake, hdrop,
    if_neg hcredentials, hsplit]
  rfl

end parts

namespace TargetUrl

variable {target : TargetUrl}

/-- `host:port`. -/
def authority (target : TargetUrl) : Text := target.host ++ portText (some target.port)

theorem Readable.splitHostPort (h : target.Readable) :
    splitHostPort target.authority = .ok (target.host, some target.port) :=
  splitHostPort_portText h.host fun p hp => by
    obtain rfl := Option.some.inj hp
    exact h.port

/-- **A readable target is read back from its own text**, which only its length can prevent: the text spells out
the port and the root path even where the text the target was read from did not. -/
theorem Readable.parse_writeUrl (h : target.Readable) :
    parse (writeUrl target target.pathAndQuery) =
      if MAX_URL_BYTES < (writeUrl target target.pathAndQuery).len then .error .tooLong else .ok target := by
  have hwrite : writeUrl target target.pathAndQuery =
      target.scheme.name ++ "://".toList ++ (target.authority ++ target.pathAndQuery) := by
    simp [writeUrl, authority, portText, List.append_assoc]
  obtain ⟨rest, hpath⟩ := h.path
  have htail : ∀ c, target.pathAndQuery.head? = some c → endsAuthority c = true := by
    intro c hc
    rw [hpath] at hc
    rw [← Option.some.inj hc]
    rfl
  rw [hwrite, parse_parts target.scheme h.splitHostPort htail h.plain, hpath]
  rw [show pathOf ('/' :: rest) = target.pathAndQuery from hpath.symm]
  rfl

end TargetUrl

end CitadelAgent.NetPolicy
