import CitadelAgent.Requests.Gate

/-!
# A hosted account's conversations

Every account's conversations lie in bucket 0 (`conversations/store.rs`), which no connection owns: what keeps a window's
`LocalDB` requests off them is that a key names its owner (`store_keys.rs`, `migration_guard.rs`).

* `conversationOwner_name` : the key of every scoped record names the account it belongs to;
* `HostedRecord` : the records of the hosted accounts' conversations;
* `dispatch_keeps` : a request to the store changes none of them, unless it clears bucket 0 while they are there.
-/

namespace CitadelAgent.Requests
open Conversations (Cid Place digits PAGINATED_PREFIX startsWith)
open Prog (Event Runs Only)

variable {sdk : Sdk} {beside : World → World → Prop} {uuid : Uuid} {command : Request} {w t : World} {events : List Call}

/-! ## A key and its owner -/

theorem le_ofDigitChars (text : List Char) (value : Nat) : value ≤ Nat.ofDigitChars 10 text value := by
  induction text generalizing value with
  | nil => exact le_rfl
  | cons c text ih =>
    rw [Nat.ofDigitChars_cons]
    exact le_trans (by omega) (ih _)

theorem parseDigits_eq {text : List Char} {value : Nat} (hdigits : ∀ c ∈ text, c.isDigit = true)
    (hfits : Nat.ofDigitChars 10 text value < 2 ^ 64) : parseDigits value text = some (Nat.ofDigitChars 10 text value) := by
  induction text generalizing value with
  | nil => rfl
  | cons c text ih =>
    rw [Nat.ofDigitChars_cons] at hfits ⊢
    have hnext := lt_of_le_of_lt (le_ofDigitChars text _) hfits
    rw [parseDigits, if_pos (hdigits c List.mem_cons_self), Nat.mul_comm value 10]
    simp only [hnext, if_true]
    exact ih (fun d hd => hdigits d (List.mem_cons_of_mem _ hd)) hfits

theorem parseU64_digits (cid : Cid) : parseU64 (digits cid.toNat) = some cid := by
  have hvalue : Nat.ofDigitChars 10 (digits cid.toNat) 0 = cid.toNat := by
    rw [digits, Nat.toString_eq_repr, Nat.toList_repr, Nat.ofDigitChars_ten_toDigits]
  have hparsed : parseDigits 0 (digits cid.toNat) = some cid.toNat := by
    rw [parseDigits_eq (fun c hc => Conversations.isDigit_of_mem_digits hc) (by rw [hvalue]; exact cid.toNat_lt), hvalue]
  have hplain : ∀ rest, digits cid.toNat ≠ '+' :: rest := by
    intro rest h
    have := Conversations.isDigit_of_mem_digits (h ▸ List.mem_cons_self : '+' ∈ digits cid.toNat)
    simp at this
  rw [parseU64, if_neg (Conversations.digits_ne_nil _), hparsed, Option.map_some, UInt64.ofNat_toNat]
  exact hplain

theorem beforeFirst_append {part front rest : List Char} {c : Char} (hpart : part.head? = some c) (hfront : c ∉ front) :
    beforeFirst part (front ++ (part ++ rest)) = some front := by
  induction front with
  | nil =>
    cases part with
    | nil => simp at hpart
    | cons d part =>
      rw [List.nil_append, List.cons_append, beforeFirst, if_pos]
      rw [List.isPrefixOf_iff_prefix]
      exact ⟨rest, rfl⟩
  | cons d front ih =>
    have hnot : ¬ part.isPrefixOf (d :: (front ++ (part ++ rest))) = true := by
      rw [List.isPrefixOf_iff_prefix]
      rintro ⟨more, hmore⟩
      cases part with
      | nil => simp at hpart
      | cons e part =>
        obtain rfl : e = c := by simpa using hpart
        exact hfront (by rw [(List.cons.inj hmore).1]; exact List.mem_cons_self)
    rw [List.cons_append, beforeFirst, if_neg hnot, ih fun h => hfront (List.mem_cons_of_mem _ h), Option.map_some]

theorem isPrefixOf?_append (front rest : List Char) : front.isPrefixOf? (front ++ rest) = some rest := by
  induction front with
  | nil => cases rest <;> rfl
  | cons c front ih => rw [List.cons_append, List.isPrefixOf?, if_pos (beq_self_eq_true c), ih]

theorem conversationOwner_name {p : Place} {own : Cid} (h : p.owner = some own) : conversationOwner p.name = some own := by
  have hrest : PAGINATED_PREFIX.toList.isPrefixOf? p.name.toList = some (digits own.toNat ++ p.ownerTail) := by
    rw [Conversations.Place.toList_name_scoped h, isPrefixOf?_append]
  have howner : beforeFirst "_with_".toList (digits own.toNat ++ p.ownerTail) = some (digits own.toNat) :=
    beforeFirst_append (c := '_') rfl (Conversations.Place.not_mem_digits (by decide) _)
  rw [conversationOwner, hrest, Option.bind_eq_bind, Option.bind_some, howner, Option.bind_some, parseU64_digits]

/-! ## What a request changes -/

/-- A record of a hosted account's conversations, where the store keeps them. -/
def HostedRecord (hosted : Cid → Bool) (bucket : Bucket) (key : String) : Prop :=
  bucket = (0, 0) ∧ ∃ (p : Place) (own : Cid), p.owner = some own ∧ hosted own = true ∧ p.name = key

variable {hosted : Cid → Bool}

variable {bucket : Bucket} {key : String} {peerCid : Option Cid}

theorem HostedRecord.owner (h : HostedRecord hosted bucket key) :
    ∃ own, conversationOwner key = some own ∧ hosted own = true := by
  obtain ⟨-, p, own, howner, hhosted, rfl⟩ := h
  exact ⟨own, conversationOwner_name howner, hhosted⟩

def Request.clears : Request → Option Bucket
  | .localDBClearAllKV cid peerCid => some (bucketOf cid peerCid)
  | _ => none

/-- Anything may happen beside a request, but these accounts stay hosted. -/
def StayHosted (hosted : Cid → Bool) (_ w : World) : Prop := ∀ own, hosted own = true → w.hosted own = true

def ListsNone (hosted : Cid → Bool) (command : Request) (c : Call) : Prop :=
  command.clears = some (0, 0) → c.op = .getAll (0, 0) → ∀ key, HostedRecord hosted (0, 0) key →
    (c.after.store (0, 0)).lookup key = none

theorem not_hosted_of_passed {checking : List Call} (hpassed : PassedHosted key checking)
    (hworld : ∀ c ∈ checking, StayHosted hosted c.before c.after) :
    ¬ HostedRecord hosted bucket key := by
  intro h
  obtain ⟨own, howner, hhosted⟩ := h.owner
  obtain ⟨c, hc, -, hnot⟩ := hpassed own howner
  rw [hworld c hc own hhosted] at hnot
  exact nomatch hnot

theorem cid_eq_zero_of_bucketOf {cid : Cid} (h : bucketOf cid peerCid = (0, 0)) : cid = 0 :=
  (Prod.mk.inj h).1

theorem mem_of_mem_keysAWindowClears {stored : Kv} (h : key ∈ keysAWindowClears stored) : key ∈ stored :=
  (List.mem_filter.mp h).1

theorem clearForWindow_keeps {r : Except String Unit}
    (run : Runs (Among (StayHosted hosted)) (clearForWindow (0, 0)) w events r t)
    (hlists : ∀ c ∈ events, c.op = .getAll (0, 0) → ∀ key, HostedRecord hosted (0, 0) key →
      (c.after.store (0, 0)).lookup key = none) : ∀ c ∈ events, c.op.Keeps (HostedRecord hosted) := by
  obtain ⟨answer, s, rest, rfl, ⟨m, -, rfl, hanswer⟩, hrest⟩ := Prog.runs_op_bind.mp run
  have hnone := hlists _ List.mem_cons_self rfl
  intro c hevent
  rcases List.mem_cons.mp hevent with rfl | hc
  · exact trivial
  · match answer with
    | .error err =>
      rw [(Prog.runs_ret.mp hrest).1] at hc
      exact absurd hc List.not_mem_nil
    | .ok stored =>
      refine hrest.only (removeEach_only fun key hkey hrecord => ?_) c hc
      have hlookup : stored.lookup key = none := (hanswer stored rfl key).trans (hnone key hrecord)
      exact AList.lookup_eq_none.mp hlookup (mem_of_mem_keysAWindowClears hkey)

theorem clear_keeps {cid : Cid} {answer : Option Response}
    (run : Runs (Among (StayHosted hosted)) (dispatch uuid (.localDBClearAllKV cid peerCid)) w events answer t)
    (hlists : ∀ c ∈ events, ListsNone hosted (.localDBClearAllKV cid peerCid) c) :
    ∀ c ∈ events, c.op.Keeps (HostedRecord hosted) := by
  by_cases hbucket : bucketOf cid peerCid = (0, 0)
  · have hclears : (Request.localDBClearAllKV cid peerCid).clears = some (0, 0) := congrArg some hbucket
    obtain ⟨first, second, response, s, rfl, hfirst, hsecond⟩ := Prog.runs_bind.mp run
    obtain ⟨rfl, -, -⟩ := Prog.runs_ret.mp hsecond
    obtain ⟨target, s', rest, rfl, -, hrest⟩ := Prog.runs_op_bind.mp hfirst
    rw [List.append_nil] at hlists ⊢
    intro c hevent
    rcases List.mem_cons.mp hevent with rfl | hc
    · exact trivial
    · match target with
      | .error err =>
        rw [(Prog.runs_ret.mp hrest).1] at hc
        exact absurd hc List.not_mem_nil
      | .ok () =>
        obtain ⟨clearing, last, r, m, rfl, hclearing, hlast⟩ := Prog.runs_bind.mp hrest
        have hnone : last = [] := by
          match r with
          | .ok () => exact (Prog.runs_ret.mp hlast).1
          | .error err => exact (Prog.runs_ret.mp hlast).1
        rw [hnone, List.append_nil] at hc hlists
        rw [hbucket] at hclearing
        refine clearForWindow_keeps hclearing (fun c hc hop => ?_) c hc
        exact hlists c (List.mem_cons_of_mem _ hc) hclears hop
  · refine run.only (Only.bind (onTarget_only trivial (Only.bind (Only.bind (Only.op trivial) fun r => ?_) fun r => ?_)) fun _ => trivial)
    · match r with
      | .ok stored => exact removeEach_only fun key _ h => hbucket h.1
      | .error err => exact trivial
    · match r with
      | .ok () => exact trivial
      | .error err => exact trivial

theorem dispatch_keeps {answer : Option Response} {checking : List Call} (hlocal : command.isLocalDB = true)
    (hpassed : Passed sdk uuid command checking) (hworld : ∀ c ∈ checking, StayHosted hosted c.before c.after)
    (run : Runs (Among (StayHosted hosted)) (dispatch uuid command) w events answer t)
    (hlists : ∀ c ∈ events, ListsNone hosted command c) : ∀ c ∈ events, c.op.Keeps (HostedRecord hosted) := by
  have hwrites : ∀ {cid : Cid} {peerCid : Option Cid} {key : String}, (cid = 0 → command.writesGlobal = some key) →
      ¬ HostedRecord hosted (bucketOf cid peerCid) key := by
    intro cid peerCid key hkey h
    exact not_hosted_of_passed (hpassed.hosted key (hkey (cid_eq_zero_of_bucketOf h.1))) hworld h
  cases command with
  | localDBGetKV cid peerCid key =>
    refine run.only (Only.bind (onTarget_only trivial (Only.bind (Only.op trivial) fun r => ?_)) fun _ => trivial)
    match r with
    | .ok (some value) => exact trivial
    | .ok none => exact trivial
    | .error err => exact trivial
  | localDBSetKV cid peerCid key value =>
    refine run.only (Only.bind (onTarget_only trivial (Only.bind (Only.op ?_) fun r => ?_)) fun _ => trivial)
    · exact hwrites fun hzero => if_pos hzero
    · match r with
      | .ok () => exact trivial
      | .error err => exact trivial
  | localDBDeleteKV cid peerCid key =>
    refine run.only (Only.bind (onTarget_only trivial (Only.bind (Only.op ?_) fun r => ?_)) fun _ => trivial)
    · exact hwrites fun hzero => if_pos hzero
    · match r with
      | .ok () => exact trivial
      | .error err => exact trivial
  | localDBGetAllKV cid peerCid =>
    refine run.only (Only.bind (onTarget_only trivial (Only.bind (Only.op trivial) fun r => ?_)) fun _ => trivial)
    match r with
    | .ok map => exact trivial
    | .error err => exact trivial
  | localDBClearAllKV cid peerCid => exact clear_keeps run hlists
  | _ => exact nomatch hlocal

def Op.Asks : Op → Prop
  | .attached _ _ | .isRecoverySession _ | .isHosted _ => True
  | _ => False

theorem checks_asks : Only Op.Asks (checks sdk uuid command) := by
  refine Only.bind ?_ fun decision => ?_
  · unfold ownershipGate
    split
    · exact Only.bind (Only.op trivial) fun _ => trivial
    · exact trivial
  · match decision with
    | .refuse _ => exact trivial
    | .proceed =>
      refine Only.bind ?_ fun recovery => ?_
      · unfold refusesRecovery
        split
        · exact Only.bind (Only.op trivial) fun _ => trivial
        · exact trivial
      · match recovery with
        | true => exact trivial
        | false =>
          dsimp only
          split
          · exact trivial
          · split
            · exact trivial
            · refine Only.bind ?_ fun hosted => ?_
              · cases command <;> try exact trivial
                all_goals
                  simp only [writesHostedConversation, ownerIsHosted]
                  split
                  · split
                    · exact Only.op trivial
                    · exact trivial
                  · exact trivial
              · match hosted with
                | true => exact trivial
                | false => exact trivial

theorem checks_world {checked : Checked} (run : Runs (Among (StayHosted hosted)) (checks sdk uuid command) w events checked t) :
    ∀ c ∈ events, StayHosted hosted c.before c.after := by
  intro c hc
  have hasks := run.only checks_asks c hc
  obtain ⟨m, hm, hdoes⟩ := run.made c hc
  obtain ⟨o, before, answer, after⟩ := c
  have hsame : after = m := by
    cases o with
    | attached cid uuid => exact hdoes.2
    | isRecoverySession cid => exact hdoes.2
    | isHosted cid => exact hdoes.2
    | _ => exact hasks.elim
  rw [hsame]
  exact hm

/-! ## What a clear removes -/

theorem removeEach_removes {keys : List String} {value : Bytes} (hkey : key ∈ keys)
    (hstored : (w.store bucket).lookup key = some value) :
    ∃ c ∈ Prog.trace answers (removeEach bucket keys) w, Does c.op c.before c.answer c.after ∧
      (c.before.store bucket).lookup key = some value ∧ (c.after.store bucket).lookup key = none := by
  induction keys generalizing w with
  | nil => exact absurd hkey List.not_mem_nil
  | cons first keys ih =>
    have hstore : (w.write bucket ((w.store bucket).erase first)).store bucket = (w.store bucket).erase first :=
      Function.update_self ..
    by_cases h : key = first
    · refine ⟨⟨.remove bucket first, w, .ok (), _⟩, List.mem_cons_self, .inl rfl, hstored, ?_⟩
      show ((w.write bucket ((w.store bucket).erase first)).store bucket).lookup key = none
      rw [hstore, h, AList.lookup_erase]
    · have hnext : ((w.write bucket ((w.store bucket).erase first)).store bucket).lookup key = some value := by
        rw [hstore, AList.lookup_erase_ne h, hstored]
      obtain ⟨c, hc, hremoved⟩ := ih ((List.mem_cons.mp hkey).resolve_left h) hnext
      exact ⟨c, List.mem_cons_of_mem _ hc, hremoved⟩

theorem not_reserved_of_hosted (h : HostedRecord hosted bucket key) : reservedKey key = none := by
  obtain ⟨-, p, own, howner, -, rfl⟩ := h
  obtain ⟨rest, hrest⟩ : ∃ rest, p.name.toList = 'm' :: rest := ⟨_, Conversations.Place.toList_name_scoped howner⟩
  have hstart : ∀ start : String, start.toList.head? = some 'a' → Conversations.startsWith p.name start = false := by
    intro start hhead
    obtain ⟨tail, htail⟩ : ∃ tail, start.toList = 'a' :: tail := by
      cases hlist : start.toList with
      | nil => simp [hlist] at hhead
      | cons c tail => exact ⟨tail, by rw [show c = 'a' by simpa [hlist] using hhead]⟩
    rw [Conversations.startsWith, hrest, htail, List.isPrefixOf_cons_cons]
    rfl
  have hauto : p.name ≠ AUTO_INSTALL_KEY := by
    intro h
    rw [h] at hrest
    simp [AUTO_INSTALL_KEY] at hrest
  rw [reservedKey, hstart APP_STORAGE_PREFIX rfl, hstart AGENT_KEY_PREFIX rfl]
  simp [hauto]

theorem checks_clear (hsession : w.sessions 0 = none) :
    Prog.run answers (checks sdk uuid (.localDBClearAllKV 0 peerCid)) w = (.passed, w) := by
  have hrecovery : (w.sessions 0).any (·.recovery) = false := by rw [hsession]; rfl
  show Prog.run answers (checkRecovery sdk (.localDBClearAllKV 0 peerCid)) w = (.passed, w)
  have hasked : Prog.run answers (refusesRecovery sdk (.localDBClearAllKV 0 peerCid)) w = (false, w) := by
    show ((w.sessions 0).any (·.recovery) && !allows sdk (.localDBClearAllKV 0 peerCid), w) = (false, w)
    rw [hrecovery]
    rfl
  rw [checkRecovery, Prog.run_bind_of answers hasked]
  rfl

theorem clear_removes (sdk : Sdk) (uuid : Uuid) {value : Bytes} (hhosted : ∀ own, hosted own = true → w.hosted own = true)
    (hsession : w.sessions 0 = none) (hbucket : bucketOf 0 peerCid = (0, 0)) (hrecord : HostedRecord hosted (0, 0) key)
    (hstored : (w.store (0, 0)).lookup key = some value) :
    ∃ leaf handling, ServesOne sdk (StayHosted hosted) uuid leaf ∧ leaf.command = .localDBClearAllKV 0 peerCid ∧
      leaf.handling = some handling ∧ ∃ c ∈ handling, Does c.op c.before c.answer c.after ∧
        (c.before.store (0, 0)).lookup key = some value ∧ (c.after.store (0, 0)).lookup key = none := by
  have hchecks : Prog.run answers (checks sdk uuid (.localDBClearAllKV 0 peerCid)) w = (.passed, w) := checks_clear hsession
  have served : ServesOne sdk (StayHosted hosted) uuid _ :=
    answered_served (.localDBClearAllKV 0 peerCid) w (fun t ht own hown => by rw [ht]; exact hhosted own hown)
      (congrArg Prod.fst hchecks)
  rw [hchecks] at served
  have hlisted : key ∈ keysAWindowClears (w.store (0, 0)) := by
    refine List.mem_filter.mpr ⟨AList.lookup_isSome.mp (by rw [hstored]; rfl), ?_⟩
    rw [not_reserved_of_hosted hrecord]
    rfl
  obtain ⟨c, hc, hremoved⟩ := removeEach_removes hlisted hstored
  refine ⟨_, _, served, rfl, rfl, c, ?_, hremoved⟩
  -- the target, the listing, and then the removals
  have hclear : Prog.trace answers (dispatch uuid (.localDBClearAllKV 0 peerCid)) w = Prog.trace answers (clearAllKV 0 peerCid) w ++ [] :=
    Prog.trace_bind ..
  rw [hclear, List.append_nil]
  refine List.mem_cons_of_mem _ ?_
  show c ∈ Prog.trace answers (clearForWindow (bucketOf 0 peerCid) >>= _) w
  rw [Prog.trace_bind, hbucket]
  exact List.mem_append_left _ (List.mem_cons_of_mem _ hc)

/-! ## The agent is the only writer -/

/-- Every scoped key names its owner, and no request of a window changes a record of a hosted account's conversations,
exactly as long as no clear of bucket 0 finds one there. -/
theorem hosted_conversations_kept (sdk : Sdk) (uuid : Uuid) (hosted : Cid → Bool) :
    (∀ (p : Place) (own : Cid), p.owner = some own → conversationOwner p.name = some own) ∧
    (∀ (tree : InternalServiceRequest) (leaves : List Leaf) (answer : Option Response),
      Serves sdk (StayHosted hosted) uuid tree leaves answer →
        (∀ leaf ∈ leaves, ∀ handling, leaf.handling = some handling → ∀ c ∈ handling, ListsNone hosted leaf.command c) →
        ∀ leaf ∈ leaves, leaf.command.isLocalDB = true → ∀ handling, leaf.handling = some handling →
          ∀ c ∈ handling, ∀ w, Does c.op w c.answer c.after → ∀ bucket key, HostedRecord hosted bucket key →
            (c.after.store bucket).lookup key = (w.store bucket).lookup key) ∧
    ∀ (w : World) (peerCid : Option Cid) (key : String) (value : Bytes), (∀ own, hosted own = true → w.hosted own = true) →
      w.sessions 0 = none → bucketOf 0 peerCid = (0, 0) → HostedRecord hosted (0, 0) key →
      (w.store (0, 0)).lookup key = some value →
      ∃ leaf handling, ServesOne sdk (StayHosted hosted) uuid leaf ∧ leaf.command = .localDBClearAllKV 0 peerCid ∧
        leaf.handling = some handling ∧ ∃ c ∈ handling, Does c.op c.before c.answer c.after ∧
          (c.before.store (0, 0)).lookup key = some value ∧ (c.after.store (0, 0)).lookup key = none := by
  refine ⟨fun p own => conversationOwner_name, ?_, fun w peerCid key value => clear_removes sdk uuid⟩
  intro tree leaves answer served hlists leaf hleaf hlocal handling hhandling c hc w hdoes bucket key hrecord
  have hnone := hlists leaf hleaf handling hhandling
  cases serves_leaves served leaf hleaf with
  | refused checked => exact nomatch hhandling
  | handled checked ran =>
    obtain rfl := Option.some.inj hhandling
    exact does_keeps hdoes (dispatch_keeps hlocal (checks_passed checked) (checks_world checked) ran hnone c hc) hrecord

def metadataOf7 : Place := ⟨some 7, 9, none⟩

def oneConversation : World :=
  { oneAccount false with
    hosted := (· = 7)
    store := fun bucket => if bucket = (0, 0) then AList.singleton metadataOf7.name [1] else ∅ }

theorem hosted_metadataOf7 : HostedRecord (· = 7) (0, 0) metadataOf7.name := ⟨rfl, metadataOf7, 7, rfl, rfl, rfl⟩

theorem hosted_conversations_kept_draft :
    conversationOwner metadataOf7.name = some 7 ∧
      (∃ leaf, ServesOne ⟨fun _ => false⟩ (StayHosted (· = 7)) 2 leaf ∧ leaf.command = .localDBSetKV 0 none "draft" [1] ∧
        ∀ handling, leaf.handling = some handling → ∀ c ∈ handling, ∀ w, Does c.op w c.answer c.after → ∀ bucket key,
          HostedRecord (· = 7) bucket key → (c.after.store bucket).lookup key = (w.store bucket).lookup key) ∧
      ∃ leaf handling, ServesOne ⟨fun _ => false⟩ (StayHosted (· = 7)) 2 leaf ∧ leaf.command = .localDBClearAllKV 0 none ∧
        leaf.handling = some handling ∧ ∃ c ∈ handling, Does c.op c.before c.answer c.after ∧
          (c.before.store (0, 0)).lookup metadataOf7.name = some [1] ∧
          (c.after.store (0, 0)).lookup metadataOf7.name = none := by
  refine ⟨(hosted_conversations_kept ⟨fun _ => false⟩ 2 (· = 7)).1 metadataOf7 7 rfl, ?_, ?_⟩
  · have served : ServesOne ⟨fun _ => false⟩ (StayHosted (· = 7)) 2 _ :=
      answered_served (.localDBSetKV 0 none "draft" [1]) oneConversation (fun t ht own hown => by rw [ht]; exact hown) rfl
    exact ⟨_, served, rfl, (hosted_conversations_kept ⟨fun _ => false⟩ 2 (· = 7)).2.1 _ _ _ (.one served)
      (fun leaf hleaf _ _ _ _ hclears => absurd hclears (by rw [List.mem_singleton.mp hleaf]; exact nofun)) _ (by simp) rfl⟩
  · exact (hosted_conversations_kept ⟨fun _ => false⟩ 2 (· = 7)).2.2 oneConversation none _ [1] (fun _ h => h) rfl rfl
      hosted_metadataOf7 (AList.lookup_insert ∅)

/-- The window 2, attached to no session, clears the conversation of the hosted account 7. -/
theorem clear_removes_a_hosted_conversation :
    ∃ leaf handling, Serves ⟨fun _ => false⟩ (StayHosted (· = 7)) 2 (.one (.localDBClearAllKV 0 none)) [leaf] leaf.answer ∧
      leaf.handling = some handling ∧ ∃ c ∈ handling, Does c.op c.before c.answer c.after ∧
        HostedRecord (· = 7) (0, 0) metadataOf7.name ∧
        (c.before.store (0, 0)).lookup metadataOf7.name = some [1] ∧ (c.after.store (0, 0)).lookup metadataOf7.name = none := by
  obtain ⟨leaf, handling, served, hcommand, hhandling, c, hc, hdoes, hremoved⟩ :=
    clear_removes (w := oneConversation) ⟨fun _ => false⟩ 2 (fun _ h => h) rfl (show bucketOf 0 none = (0, 0) from rfl)
      hosted_metadataOf7 (show _ = some [1] from AList.lookup_insert ∅)
  exact ⟨leaf, handling, hcommand ▸ .one served, hhandling, c, hc, hdoes, hosted_metadataOf7, hremoved⟩

end CitadelAgent.Requests
