import CitadelAgent.Apps.Fetch
import CitadelAgent.NetPolicy.Aton

/-!
# The hosts a fetch names

What `url.rs`, `grant.rs` and `authorize.rs` make of a host must agree: with the grammar that the URL parser documents,
with what a resolver makes of a host (NetPolicy.Aton), and between a grant's entries and the URLs they are to let through.

* `UrlParts`, `UrlParts.Grammatical` : the documented grammar, `parse_write` : what of it is accepted;
* `no_parser_differential` : what `parse` accepts means the same to everyone who reads it;
* `parse_entry` : an entry of a grant as a URL; `page_narrows` : a page's hosts are the server's.
-/

namespace CitadelAgent.Apps
open NetPolicy

/-! ## The documented grammar -/

/-- The host of a URL, as it is written: labels with dots between them, or a dotted quad. -/
inductive HostPart
  | name (labels : List Text)
  | address (ip : Ipv4Addr)

/-- `scheme://host[:port][/path][?query]`, in its parts. -/
structure UrlParts where
  scheme : Scheme
  host : HostPart
  port : Option UInt16
  path : Option Text
  query : Option Text

def HostPart.write : HostPart → Text
  | .name labels => ['.'].intercalate labels
  | .address ip => ip.dotted

/-- Letters of either case, digits and inner hyphens, up to 63. -/
structure IsLabel (label : Text) : Prop where
  some : label ≠ []
  short : label.length ≤ 63
  chars : ∀ c ∈ label, c.isAlphanum = true ∨ c = '-'
  first : label.head? ≠ Option.some '-'
  last : label.getLast? ≠ Option.some '-'

/-- The last label of a name: it has a letter, and does not start a hexadecimal number. -/
structure IsTopLabel (label : Text) : Prop where
  letter : ∃ c ∈ label, c.isAlpha = true
  hex : ¬ "0x".toList <+: label.toAsciiLowercase

def HostPart.Grammatical : HostPart → Prop
  | .name labels => (∀ label ∈ labels, IsLabel label) ∧ (∃ label, labels.getLast? = some label ∧ IsTopLabel label) ∧
      (['.'].intercalate labels).length ≤ 253
  | .address _ => True

namespace UrlParts

def tail (parts : UrlParts) : Text := parts.path.elim [] ('/' :: ·) ++ parts.query.elim [] ('?' :: ·)

def write (parts : UrlParts) : Text :=
  parts.scheme.name ++ "://".toList ++ (parts.host.write ++ portText parts.port ++ parts.tail)

structure Grammatical (parts : UrlParts) : Prop where
  host : parts.host.Grammatical
  port : ∀ p, parts.port = some p → 0 < p.toNat
  plain : ∀ c ∈ parts.tail, isAsciiGraphic c = true ∧ c ≠ '\\' ∧ c ≠ '#'

def target (parts : UrlParts) : TargetUrl where
  scheme := parts.scheme
  host := parts.host.write.toAsciiLowercase
  port := parts.port.getD parts.scheme.defaultPort
  pathAndQuery := pathOf parts.tail

end UrlParts

/-! ## What of it is accepted -/

theorem len_of_ascii : ∀ {text : Text}, (∀ c ∈ text, c.val ≤ 127) → text.len = text.length
  | [], _ => rfl
  | c :: rest, h => by
    have hone := Char.utf8Size_eq_one_iff.mpr (h c List.mem_cons_self)
    have hrest : Text.len rest = rest.length := len_of_ascii fun d hd => h d (List.mem_cons_of_mem _ hd)
    rw [Text.len, List.map_cons, List.sum_cons, hone, ← Text.len, hrest, List.length_cons, Nat.add_comm]

theorem len_of_authority {text : Text} (h : ∀ c ∈ text, isAuthorityChar c = true) : text.len = text.length := by
  refine len_of_ascii fun c hc => ?_
  have hgraphic := isAsciiGraphic_isAuthorityChar (h c hc)
  simp only [isAsciiGraphic, Bool.and_eq_true, decide_eq_true_eq] at hgraphic
  exact UInt32.le_trans hgraphic.2 (by decide)

variable {c : Char} {allowed : AllowedHost} {entry : Text}

theorem forall_ascii {P : Char → Prop} (h : ∀ n : Fin 128, P (Char.ofNat n)) (hc : c.val ≤ 127) : P c := by
  have hlt : c.toNat < 128 := Nat.lt_succ_of_le (UInt32.le_iff_toNat_le.mp hc)
  have hchar := h ⟨c.toNat, hlt⟩
  rwa [Char.ofNat_toNat] at hchar

theorem ascii_of_alphanum (h : c.isAlphanum = true) : c.val ≤ 127 := by
  simp only [Char.isAlphanum, Char.isAlpha, Char.isUpper, Char.isLower, Char.isDigit, Bool.or_eq_true, Bool.and_eq_true,
    decide_eq_true_eq] at h
  rcases h with (h | h) | h
  · exact UInt32.le_trans h.2 (by decide)
  · exact UInt32.le_trans h.2 (by decide)
  · exact UInt32.le_trans h.2 (by decide)

theorem toLower_alphanum (h : c.isAlphanum = true) : (isAsciiLowercase c.toLower || c.toLower.isDigit) = true := by
  have hall : ∀ n : Fin 128, (Char.ofNat n).isAlphanum = true →
      (isAsciiLowercase (Char.ofNat n).toLower || (Char.ofNat n).toLower.isDigit) = true := by decide +kernel
  exact forall_ascii (P := fun c => c.isAlphanum = true → (isAsciiLowercase c.toLower || c.toLower.isDigit) = true) hall
    (ascii_of_alphanum h) h

theorem toLower_alpha (h : c.isAlpha = true) : isAsciiLowercase c.toLower = true := by
  have hall : ∀ n : Fin 128, (Char.ofNat n).isAlpha = true → isAsciiLowercase (Char.ofNat n).toLower = true := by
    decide +kernel
  have halnum : c.isAlphanum = true := by
    rw [Char.isAlphanum, h]
    rfl
  exact forall_ascii (P := fun c => c.isAlpha = true → isAsciiLowercase c.toLower = true) hall (ascii_of_alphanum halnum) h

theorem toLower_eq_hyphen (h : c.toLower = '-') : c = '-' := by
  by_cases hup : c.val ≥ 'A'.val ∧ c.val ≤ 'Z'.val
  · have hascii : c.val ≤ 127 := UInt32.le_trans hup.2 (by decide)
    have hall : ∀ n : Fin 128, (Char.ofNat n).toLower = '-' → Char.ofNat n = '-' := by decide +kernel
    exact forall_ascii (P := fun c => c.toLower = '-' → c = '-') hall hascii h
  · rwa [Char.toLower, dif_neg hup] at h

theorem labelOk_lower {label : Text} (h : IsLabel label) : labelOk label.toAsciiLowercase = true := by
  have hchar : ∀ c ∈ label.toAsciiLowercase, (isAsciiLowercase c || c.isDigit || c == '-') = true := by
    intro c hc
    obtain ⟨d, hd, rfl⟩ := List.mem_map.mp hc
    rcases h.chars d hd with halnum | rfl
    · rw [toLower_alphanum halnum]
      rfl
    · rfl
  have hascii : ∀ c ∈ label.toAsciiLowercase, isAuthorityChar c = true := by
    intro c hc
    refine isAuthorityChar_of_isHostChar ?_
    rw [isHostChar, hchar c hc]
    rfl
  have hempty : label.toAsciiLowercase.isEmpty = false := by
    simpa [Text.toAsciiLowercase] using h.some
  have hlen : label.toAsciiLowercase.len ≤ 63 := by
    rw [len_of_authority hascii, Text.toAsciiLowercase, List.length_map]
    exact h.short
  have hfirst : label.toAsciiLowercase.head? ≠ some '-' := by
    rw [Text.toAsciiLowercase, List.head?_map]
    intro heq
    obtain ⟨c, hc, hlower⟩ := Option.map_eq_some_iff.mp heq
    exact h.first (by rw [hc, toLower_eq_hyphen hlower])
  have hlast : label.toAsciiLowercase.getLast? ≠ some '-' := by
    rw [Text.toAsciiLowercase, List.getLast?_map]
    intro heq
    obtain ⟨c, hc, hlower⟩ := Option.map_eq_some_iff.mp heq
    exact h.last (by rw [hc, toLower_eq_hyphen hlower])
  simp only [labelOk, hempty, Bool.not_false, Bool.true_and, Bool.and_eq_true, decide_eq_true_eq, bne_iff_ne, List.all_eq_true]
  exact ⟨⟨⟨hlen, hfirst⟩, hlast⟩, hchar⟩

theorem lastLabelOk_lower {label : Text} (h : IsTopLabel label) : lastLabelOk label.toAsciiLowercase = true := by
  obtain ⟨c, hc, halpha⟩ := h.letter
  have hhex : "0x".toList.isPrefixOf label.toAsciiLowercase = false := by
    rw [Bool.eq_false_iff, ne_eq, List.isPrefixOf_iff_prefix]
    exact h.hex
  simp only [lastLabelOk, hhex, Bool.not_false, Bool.and_true, List.any_eq_true]
  exact ⟨c.toLower, List.mem_map_of_mem hc, toLower_alpha halpha⟩

theorem toAsciiLowercase_intercalate : ∀ labels : List Text,
    Text.toAsciiLowercase (['.'].intercalate labels) = ['.'].intercalate (labels.map Text.toAsciiLowercase)
  | [] => rfl
  | [label] => by simp
  | label :: next :: rest => by
    have ih := toAsciiLowercase_intercalate (next :: rest)
    rw [List.map_cons] at ih
    rw [List.intercalate_cons_cons, List.map_cons, List.map_cons, List.intercalate_cons_cons, ← ih]
    simp [Text.toAsciiLowercase]

theorem parseHost_write {host : HostPart} (h : host.Grammatical) : parseHost host.write = .ok host.write.toAsciiLowercase := by
  cases host with
  | address ip =>
    have hlower : ip.dotted.toAsciiLowercase = ip.dotted := by
      rw [Text.toAsciiLowercase]
      exact (List.map_congr_left fun c hc => toLower_isHostChar (isHostChar_dotted hc)).trans (List.map_id _)
    rw [HostPart.write, hlower, parseHost, hlower, canonicalIpv4_iff.mpr rfl]
    rfl
  | name labels =>
    obtain ⟨hlabels, ⟨label, hlast, htop⟩, hshort⟩ := h
    have hlower := toAsciiLowercase_intercalate labels
    have hne : labels.map Text.toAsciiLowercase ≠ [] := by
      rintro heq
      rw [List.map_eq_nil_iff.mp heq] at hlast
      cases hlast
    have hok : (labels.map Text.toAsciiLowercase).all labelOk = true := by
      rw [List.all_eq_true]
      intro l hl
      obtain ⟨x, hx, rfl⟩ := List.mem_map.mp hl
      exact labelOk_lower (hlabels x hx)
    have hdot : ∀ l ∈ labels.map Text.toAsciiLowercase, '.' ∉ l := by
      intro l hl hdot
      have hchars := List.all_eq_true.mp hok l hl
      simp only [labelOk, Bool.and_eq_true, List.all_eq_true] at hchars
      exact absurd (hchars.2 '.' hdot) (by decide)
    have hsplit : (['.'].intercalate (labels.map Text.toAsciiLowercase)).splitOn '.' = labels.map Text.toAsciiLowercase :=
      List.splitOn_intercalate '.' hdot hne
    have hascii : ∀ c ∈ ['.'].intercalate (labels.map Text.toAsciiLowercase), isAuthorityChar c = true :=
      fun c hc => isAuthorityChar_of_isHostChar (isHostChar_labels (by rw [hsplit]; exact hok) hc)
    have hlen : Text.len (['.'].intercalate (labels.map Text.toAsciiLowercase)) ≤ 253 := by
      rw [len_of_authority hascii, ← hlower, Text.toAsciiLowercase, List.length_map]
      exact hshort
    have hempty : (['.'].intercalate (labels.map Text.toAsciiLowercase)).isEmpty = false := by
      rw [Bool.eq_false_iff, ne_eq, List.isEmpty_iff]
      intro hnil
      rw [hnil] at hsplit
      rw [← hsplit] at hok
      exact absurd hok (by decide)
    rw [HostPart.write, parseHost, hlower, hsplit, hok, hempty, List.getLast?_map, hlast, Option.map_some, Option.any_some,
      lastLabelOk_lower htop]
    simp [hlen]

theorem parse_write {parts : UrlParts} (h : parts.Grammatical) :
    TargetUrl.parse parts.write = if MAX_URL_BYTES < parts.write.len then .error .tooLong else .ok parts.target := by
  have htail : ∀ c, parts.tail.head? = some c → endsAuthority c = true := by
    intro c hc
    unfold UrlParts.tail at hc
    cases hp : parts.path with
    | some path =>
      rw [hp] at hc
      rw [← Option.some.inj hc]
      rfl
    | none =>
      cases hq : parts.query with
      | some query =>
        rw [hp, hq] at hc
        rw [← Option.some.inj hc]
        rfl
      | none =>
        rw [hp, hq] at hc
        cases hc
  exact parse_parts parts.scheme (splitHostPort_portText (parseHost_write h.host) h.port) htail h.plain

/-! ## What everyone else makes of it -/

theorem text_of_parse {text : Text} {target : TargetUrl} (h : TargetUrl.parse text = .ok target) :
    (∀ c ∈ text, isAsciiGraphic c = true ∧ c ≠ '\\' ∧ c ≠ '#') ∧
      ∃ rest, text = target.scheme.name ++ "://".toList ++ rest ∧ '@' ∉ rest.takeWhile fun c => !endsAuthority c := by
  unfold TargetUrl.parse at h
  split_ifs at h with hlong hplain hfragment
  have hplain : ∀ c ∈ text, isAsciiGraphic c = true ∧ c ≠ '\\' := by simpa using hplain
  refine ⟨fun c hc => ⟨(hplain c hc).1, (hplain c hc).2, fun heq => hfragment (heq ▸ hc)⟩, ?_⟩
  obtain ⟨⟨scheme, rest⟩, hscheme, h⟩ := Result.bind_eq_ok.mp h
  dsimp only at h
  split_ifs at h with hcredentials
  obtain ⟨⟨host, port⟩, -, h⟩ := Result.bind_eq_ok.mp h
  rw [← Except.ok.inj h]
  refine ⟨rest, ?_, hcredentials⟩
  unfold stripScheme at hscheme
  split at hscheme
  · rename_i r hr
    obtain ⟨rfl, rfl⟩ := Prod.mk.inj (Except.ok.inj hscheme)
    rw [stripStart_eq_some hr]
    rfl
  · split at hscheme
    · rename_i r hr
      obtain ⟨rfl, rfl⟩ := Prod.mk.inj (Except.ok.inj hscheme)
      rw [stripStart_eq_some hr]
      rfl
    · cases hscheme

/-- `https://Api.Acme.com:8443/a?b` -/
def boardUrl : UrlParts :=
  ⟨.https, .name ["Api".toList, "Acme".toList, "com".toList], some 8443, some "a".toList, some "b".toList⟩

theorem grammatical_boardUrl : boardUrl.Grammatical := by
  have hlabel : ∀ label ∈ ["Api".toList, "Acme".toList, "com".toList], IsLabel label := by
    simp only [List.mem_cons, List.not_mem_nil, or_false]
    rintro label (rfl | rfl | rfl) <;>
      exact ⟨by decide, by decide, List.forall_iff_forall_mem.mp (by decide), by decide, by decide⟩
  refine ⟨⟨hlabel, ⟨"com".toList, rfl, ⟨'c', by decide, by decide⟩, by decide⟩, by decide⟩, fun p hp => ?_,
    List.forall_iff_forall_mem.mp (by decide)⟩
  rw [← Option.some.inj hp]
  decide

/-- `https://a.io/`, with a path too long for the limit. -/
def endlessUrl : UrlParts :=
  ⟨.https, .name ["a".toList, "io".toList], none, some (List.replicate MAX_URL_BYTES 'a'), none⟩

theorem length_ofNat_le {n k : Nat} (hk : 0 < k) (h : n < 10 ^ k) : (Text.ofNat n).length ≤ k :=
  (Nat.length_toDigits_le_iff (by decide) hk).mpr h

theorem length_of_parseHost {name host : Text} (h : parseHost name = .ok host) : name.length ≤ 253 := by
  have hlower := parseHost_lower h
  have hascii := len_of_authority fun c hc => isAuthorityChar_of_isHostChar ((parseHost_eq_ok h).2 c hc)
  have hlen : name.length = host.length := by
    rw [← hlower, Text.toAsciiLowercase, List.length_map]
  rw [hlen]
  have h := (parseHost_eq_ok h).1
  unfold parseHost at h
  rw [show host.toAsciiLowercase = host from parseHost_lower h] at h
  dsimp only at h
  split_ifs at h with hip hshort
  · obtain ⟨ip, hip⟩ := Option.isSome_iff_exists.mp hip
    rw [canonicalIpv4_iff.mp hip, Ipv4Addr.dotted]
    have hpart : ∀ x : UInt8, (Text.ofNat x.toNat).length ≤ 3 := by
      intro x
      have hx := x.toNat_lt
      exact length_ofNat_le (by decide) (by omega)
    have ha := hpart ip.a
    have hb := hpart ip.b
    have hc := hpart ip.c
    have hd := hpart ip.d
    simp only [List.length_append, List.length_cons]
    omega
  · simp only [Bool.or_eq_true, decide_eq_true_eq, not_or] at hshort
    omega

theorem entry_of_parse (h : AllowedHost.parse entry = .ok allowed) :
    splitHostPort entry = .ok (allowed.host, allowed.port) ∧ entry.toAsciiLowercase = entry := by
  unfold AllowedHost.parse at h
  split_ifs at h with hwild hform
  simp only [not_or, not_not] at hform
  split at h
  · rename_i host port hsplit
    rw [← Except.ok.inj h]
    exact ⟨hsplit, hform.2.2.2.2.symm⟩
  · cases h

/-- **An entry is the URL of its host**, on its port or on that of `https`. -/
theorem parse_entry (h : AllowedHost.parse entry = .ok allowed) :
    TargetUrl.parse ("https://".toList ++ entry ++ "/".toList) =
      .ok ⟨.https, allowed.host, allowed.port.getD 443, "/".toList⟩ := by
  obtain ⟨hsplit, -⟩ := entry_of_parse h
  obtain ⟨name, hentry, hname, -⟩ := splitHostPort_eq_ok hsplit
  have hport : (portText allowed.port).length ≤ 6 := by
    cases hp : allowed.port with
    | none => simp [portText]
    | some p =>
      have hdigits : (Text.ofNat p.toNat).length ≤ 5 := length_ofNat_le (by decide) (by have := p.toNat_lt; omega)
      rw [portText, Option.elim_some, List.length_cons]
      exact Nat.succ_le_succ hdigits
  have hlen : Text.len (Scheme.https.name ++ "://".toList ++ (entry ++ "/".toList)) ≤ MAX_URL_BYTES := by
    have hname := length_of_parseHost hname
    have hlength := congrArg List.length hentry
    rw [List.length_append] at hlength
    have happend : ∀ a b : Text, Text.len (a ++ b) = a.len + b.len := by
      intro a b
      simp [Text.len]
    rw [happend, happend entry, len_of_authority (mem_authority hsplit),
      show Text.len (Scheme.https.name ++ "://".toList) = 8 by decide, show Text.len "/".toList = 1 by decide]
    unfold MAX_URL_BYTES
    omega
  have htail : ∀ c, "/".toList.head? = some c → endsAuthority c = true := by
    intro c hc
    rw [← Option.some.inj hc]
    rfl
  have hread := parse_parts .https hsplit htail (List.forall_iff_forall_mem.mp (by decide))
  rw [List.append_assoc, show "https://".toList ++ (entry ++ "/".toList) =
    Scheme.https.name ++ "://".toList ++ (entry ++ "/".toList) from rfl, hread, if_neg (Nat.not_lt.mpr hlen)]
  rfl

theorem admits_entry {egress : Egress} (h : AllowedHost.parse entry = .ok allowed) :
    ∃ grant, NetGrant.new egress [entry] = .ok grant ∧ grant.admits allowed.host (allowed.port.getD 443) = true := by
  refine ⟨⟨egress, [allowed]⟩, ?_, ?_⟩
  · simp [NetGrant.new, NetGrant.readHosts, h, MAX_HOSTS]
  · rw [NetGrant.admits, List.any_cons, AllowedHost.admits]
    cases allowed.port with
    | none => simp [DEFAULT_PORTS]
    | some port => simp

theorem mem_readHosts : ∀ {entries : List Text} {hosts result : List AllowedHost},
    NetGrant.readHosts hosts entries = .ok result →
    ∀ allowed ∈ result, allowed ∈ hosts ∨ ∃ entry ∈ entries, AllowedHost.parse entry = .ok allowed
  | [], hosts, result, h, allowed, hmem => by
    rw [NetGrant.readHosts, Except.ok.injEq] at h
    exact .inl (h ▸ hmem)
  | entry :: entries, hosts, result, h, allowed, hmem => by
    rw [NetGrant.readHosts] at h
    obtain ⟨host, hhost, h⟩ := Result.bind_eq_ok.mp h
    split_ifs at h with hdup
    rcases mem_readHosts h allowed hmem with hold | ⟨e, he, hparse⟩
    · rcases List.mem_append.mp hold with hold | hnew
      · exact .inl hold
      · rw [List.mem_singleton] at hnew
        exact .inr ⟨entry, List.mem_cons_self, hnew ▸ hhost⟩
    · exact .inr ⟨e, List.mem_cons_of_mem _ he, hparse⟩

/-- **A page narrows, never widens.** What the grant of its narrowed hosts admits, an entry of the server's admits, in
lower case; and an entry means to the grant what it means in a URL. -/
theorem page_narrows :
    (∀ egress page (server : List Text) grant host port, NetGrant.new egress (narrowed page server) = .ok grant →
      grant.admits host port = true →
      ∃ entry ∈ server, ∃ allowed, AllowedHost.parse entry.toAsciiLowercase = .ok allowed ∧ allowed.admits host port = true) ∧
    ∀ egress entry allowed, AllowedHost.parse entry = .ok allowed →
      TargetUrl.parse ("https://".toList ++ entry ++ "/".toList) =
        .ok ⟨.https, allowed.host, allowed.port.getD 443, "/".toList⟩ ∧
      ∃ grant, NetGrant.new egress [entry] = .ok grant ∧ grant.admits allowed.host (allowed.port.getD 443) = true := by
  refine ⟨fun egress page server grant host port hnew hadmits => ?_, fun egress entry allowed h =>
    ⟨parse_entry h, admits_entry h⟩⟩
  unfold NetGrant.new at hnew
  split_ifs at hnew
  obtain ⟨hosts, hread, hnew⟩ := Result.bind_eq_ok.mp hnew
  rw [← Except.ok.inj hnew] at hadmits
  obtain ⟨allowed, hmem, hadmits⟩ := List.any_eq_true.mp hadmits
  rcases mem_readHosts hread allowed hmem with hold | ⟨asked, hasked, hparse⟩
  · exact absurd hold List.not_mem_nil
  · obtain ⟨-, hserver⟩ := List.mem_filter.mp hasked
    obtain ⟨entry, hentry, hsame⟩ := List.any_eq_true.mp hserver
    have hsame : entry.toAsciiLowercase = asked.toAsciiLowercase := by simpa [eqIgnoreAsciiCase] using hsame
    refine ⟨entry, hentry, allowed, ?_, hadmits⟩
    rw [hsame, (entry_of_parse hparse).2]
    exact hparse

/-- A page that asks for `api.acme.com`, of a server that lists it in capitals. -/
theorem page_narrows_acme :
    ∃ entry ∈ (["API.acme.com".toList] : List Text), ∃ allowed, AllowedHost.parse entry.toAsciiLowercase = .ok allowed ∧
      allowed.admits "api.acme.com".toList 443 = true := by
  have hparse : AllowedHost.parse "api.acme.com".toList = .ok ⟨"api.acme.com".toList, none⟩ := by decide
  obtain ⟨-, grant, hnew, hadmits⟩ := page_narrows.2 (.host false) _ _ hparse
  have hnarrowed : narrowed ["api.acme.com".toList, "evil.io".toList] ["API.acme.com".toList] = ["api.acme.com".toList] := by
    decide
  exact page_narrows.1 (.host false) ["api.acme.com".toList, "evil.io".toList] _ grant _ _ (by rw [hnarrowed]; exact hnew)
    hadmits

end CitadelAgent.Apps
