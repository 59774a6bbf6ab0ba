import CitadelAgent.Conversations.Loaded
import CitadelAgent.Conversations.Newest

/-!
# What retention removes

* `exec_prunePages` : the loop of `prune_older_than` from beginning to end, on pages that can be read;
* `exec_prune` : and the whole call, which passes over the pages only if there may be something to remove;
* `Retained`, `retention_exact` : what is removed, kept, counted and marked, and that a second call has nothing to do.
-/

namespace CitadelAgent.Conversations
open Store StoreRules Result

def older (cutoff : F64) (m : ConversationMessage) : Bool := !cutoff.le m.timestamp

def afterPrune (cutoff : F64) : Except KvError (Option ConversationPage) → Except KvError (Option ConversationPage)
  | .ok (some p) => .ok (some (if (p.messages.filter fun m => cutoff.le m.timestamp).length = p.messages.length then p
      else (p.kept cutoff).norm))
  | other => other

section Loop

variable {own peer : Cid} {kv : Kv} {cutoff : F64}

theorem length_sub_kept (cutoff : F64) (messages : List ConversationMessage) :
    messages.length - (messages.filter fun m => cutoff.le m.timestamp).length = messages.countP (older cutoff) := by
  have hsplit := List.length_eq_countP_add_countP (fun m => cutoff.le m.timestamp) (l := messages)
  rw [List.countP_eq_length_filter] at hsplit
  have hnot : messages.countP (fun m => decide ¬ cutoff.le m.timestamp = true) = messages.countP (older cutoff) := by
    refine List.countP_congr fun m _ => ?_
    simp [older]
  omega

theorem exec_prunePages (cutoff : F64) {numbers : List UInt32} (h : Placed kv own peer) (hnodup : numbers.Nodup)
    (hload : ∀ n ∈ numbers, ∃ found, pageOf kv own peer n = .ok found) (removed : Nat) (oldest : Option F64) : ∃ kv',
    Kv.exec (prunePages own peer cutoff numbers removed oldest) kv =
      (.ok (removed + (messagesOn kv own peer numbers).countP (older cutoff),
        ((messagesOn kv own peer numbers).filter fun m => cutoff.le m.timestamp).foldl oldestOf oldest), kv') ∧
    Passed (afterPrune cutoff) kv kv' own peer numbers ∧ metadataOf kv' own peer = metadataOf kv own peer ∧
    ((messagesOn kv own peer numbers).countP (older cutoff) = 0 → kv' = kv) := by
  induction numbers generalizing kv removed oldest with
  | nil => exact ⟨kv, rfl, fun n => by simp, rfl, fun _ => rfl⟩
  | cons number newer ih =>
    rw [List.nodup_cons] at hnodup
    obtain ⟨found, hfound⟩ := hload number List.mem_cons_self
    have hnewer : ∀ n ∈ newer, ∃ found, pageOf kv own peer n = .ok found := fun n hn => hload n (List.mem_cons_of_mem _ hn)
    have hsplit : messagesOn kv own peer (number :: newer) = loadedOn kv own peer number ++ messagesOn kv own peer newer :=
      List.flatMap_cons
    rw [prunePages, Kv.exec_bind, exec_loadPage, hfound]
    cases found with
    | none =>
      obtain ⟨kv', hrun, hpages, hmeta, hsame⟩ := ih h hnodup.2 hnewer removed oldest
      rw [hsplit, loadedOn_none hfound, List.nil_append]
      exact ⟨kv', hrun, hpages.skip hnodup.1 (by rw [hfound]; rfl), hmeta, hsame⟩
    | some page =>
      obtain ⟨hpeer, hnumber⟩ := h.page number page hfound
      simp only [Prog.resume_ok]
      rw [hsplit, loadedOn_eq hfound, List.countP_append, List.filter_append, List.foldl_append]
      have hgone := length_sub_kept cutoff page.messages
      split_ifs with hall
      · obtain ⟨kv', hrun, hpages, hmeta, hsame⟩ := ih h hnodup.2 hnewer removed
          ((page.messages.filter fun m => cutoff.le m.timestamp).foldl oldestOf oldest)
        rw [hall, Nat.sub_self] at hgone
        rw [← hgone, Nat.zero_add]
        refine ⟨kv', hrun, hpages.skip hnodup.1 ?_, hmeta, hsame⟩
        rw [hfound, afterPrune, if_pos hall]
      · have hsound := sound_kept cutoff (sound_of_pageOf hfound)
        obtain ⟨b, hb⟩ : ∃ b, encodePage (page.kept cutoff) = .ok b := ⟨_, hsound.encodePage⟩
        have hothers := pageOf_others kv own peer hb hsound.readable hnodup.1
        obtain ⟨kv', hrun, hpages, hmeta, -⟩ := ih (h.insert hb hpeer hnumber) hnodup.2
          (fun n hn => (hothers n hn).symm ▸ hnewer n hn)
          (removed + (page.messages.length - (page.messages.filter fun m => cutoff.le m.timestamp).length))
          ((page.messages.filter fun m => cutoff.le m.timestamp).foldl oldestOf oldest)
        rw [messagesOn_congr hothers] at hrun
        refine ⟨kv', ?_, hpages.write hb hsound.readable hnodup.1 (by rw [hfound, afterPrune, if_neg hall]),
          hmeta.trans (metadataOf_insert_messages ..), fun hnone => ?_⟩
        · have hb' := hb
          rw [ConversationPage.kept] at hb'
          rw [Kv.exec_bind, exec_savePage, hb', hpeer, hnumber, Prog.resume_ok, hrun, hgone, Nat.add_assoc]
        · rw [← hgone] at hnone
          have hle := List.length_filter_le (fun m => cutoff.le m.timestamp) page.messages
          omega

end Loop

/-! ## The oldest mark -/

theorem F64.min_choice (x y : F64) : x.min y = x ∨ x.min y = y := by
  rw [F64.min]
  split_ifs <;> simp

theorem oldest_choice {messages : List ConversationMessage} {oldest : Option F64} {o : F64}
    (h : messages.foldl oldestOf oldest = some o) : oldest = some o ∨ ∃ m ∈ messages, o = m.timestamp := by
  induction messages generalizing oldest with
  | nil => exact .inl h
  | cons m rest ih =>
    rw [List.foldl_cons] at h
    rcases ih h with hmark | ⟨x, hx, ho⟩
    · cases oldest with
      | none => exact .inr ⟨m, List.mem_cons_self, (Option.some.inj hmark).symm⟩
      | some o' =>
        have hmin : o = o'.min m.timestamp := (Option.some.inj hmark).symm
        rcases F64.min_choice o' m.timestamp with hleft | hright
        · exact .inl (by rw [hmin, hleft])
        · exact .inr ⟨m, List.mem_cons_self, by rw [hmin, hright]⟩
    · exact .inr ⟨x, List.mem_cons_of_mem _ hx, ho⟩

theorem oldest_isNone {messages : List ConversationMessage} (hfin : ∀ m ∈ messages, m.timestamp.isFinite = true)
    (h : messages.foldl oldestOf none = none) : messages = [] := by
  refine List.eq_nil_iff_forall_not_mem.mpr fun m hm => ?_
  have hnone : ∀ o, (none : Option F64) = some o → o.isFinite = true := fun o ho => by cases ho
  obtain ⟨-, hbelow, -⟩ := below_foldl hfin hnone
  obtain ⟨o, ho, -⟩ := hbelow m hm
  rw [h] at ho
  cases ho

/-! ## The call -/

theorem older_eq {cutoff : F64} (hcutoff : cutoff.isNaN = false) {m : ConversationMessage} (hm : m.timestamp.isNaN = false) :
    older cutoff m = m.timestamp.lt cutoff := by
  rw [older, F64.le, F64.lt, hcutoff, hm]
  simp [← decide_not]

section Call

variable {own peer : Cid} {kv kv' : Kv} {cutoff now : F64} {m : ConversationMetadata} {c : Conversation}

def ConversationMetadata.pruned (m : ConversationMetadata) (removed : Nat) (oldest : Option F64) (now : F64) :
    ConversationMetadata :=
  { m with
    totalMessageCount := (m.totalMessageCount.sub (F64.ofNat removed)).max (F64.ofNat 0)
    oldestMessageTimestamp := oldest.getD (F64.ofNat 0)
    lastUpdated := now }

theorem exec_prune_nothing (h : Run kv) (hloads : Loads kv own peer) (hm : metadataOf kv own peer = .ok (some m))
    (hnone : (messagesTo kv own peer m.latestPage).countP (older cutoff) = 0) (now : F64) :
    Kv.exec (pruneOlderThan own peer cutoff now) kv = (.ok 0, kv) := by
  rw [pruneOlderThan, Kv.exec_bind, exec_loadMetadata, hm]
  simp only [Prog.resume_ok]
  split_ifs
  · rfl
  · obtain ⟨kv', hrun, -, -, hsame⟩ := exec_prunePages cutoff (h.reached.sited.2 own peer).placed (nodup_pagesTo m.latestPage)
      (fun n _ => hloads.page h n) 0 none
    rw [messagesTo] at hnone
    rw [Kv.exec_bind, hrun, hsame hnone]
    simp only [Nat.zero_add, Prog.resume_ok]
    rw [if_pos hnone]
    rfl

theorem exec_prune_some (h : Run kv) (hloads : Loads kv own peer) (hm : metadataOf kv own peer = .ok (some m))
    (hsome : (messagesTo kv own peer m.latestPage).countP (older cutoff) ≠ 0) (now : F64) : ∃ kv₁,
    Kv.exec (pruneOlderThan own peer cutoff now) kv = (.ok ((messagesTo kv own peer m.latestPage).countP (older cutoff)),
      kv₁.insert (Place.metadata own peer).name (metadataBytes (m.pruned
        ((messagesTo kv own peer m.latestPage).countP (older cutoff))
        (((messagesTo kv own peer m.latestPage).filter fun x => cutoff.le x.timestamp).foldl oldestOf none) now))) ∧
    (∀ n, pageOf kv₁ own peer n =
      if n ∈ pagesTo m.latestPage then afterPrune cutoff (pageOf kv own peer n) else pageOf kv own peer n) := by
  obtain ⟨c, hread⟩ := hloads.conversation h hm
  obtain ⟨htotal, hlt⟩ := hread.total
  obtain ⟨x, hx, hold⟩ := List.countP_pos_iff.mp (Nat.pos_of_ne_zero hsome)
  -- The early return would leave a message that is older, and its marks do not allow it.
  have hlook : ¬ (m.totalMessageCount.eq (F64.ofNat 0) ||
      ((F64.ofNat 0).lt m.oldestMessageTimestamp && cutoff.le m.oldestMessageTimestamp)) = true := by
    rw [Bool.or_eq_true, Bool.and_eq_true, not_or, htotal]
    constructor
    · rw [F64.ofNat_eq_iff (by omega) (by decide)]
      exact Nat.ne_of_gt (List.length_pos_of_mem hx)
    · rintro ⟨-, hcut⟩
      rw [older, F64.le_trans hcut (hread.oldest hx).2] at hold
      cases hold
  obtain ⟨kv₁, hrun, hpages, -, -⟩ := exec_prunePages cutoff (h.reached.sited.2 own peer).placed (nodup_pagesTo m.latestPage)
    (fun n _ => hloads.page h n) 0 none
  rw [← messagesTo] at hrun
  refine ⟨kv₁, ?_, hpages⟩
  have hpeer := (h.reached.sited.2 own peer).placed.metadata m hm
  rw [pruneOlderThan, Kv.exec_bind, exec_loadMetadata, hm]
  simp only [Prog.resume_ok]
  rw [if_neg hlook, Kv.exec_bind, hrun]
  simp only [Nat.zero_add, Prog.resume_ok]
  subst hpeer
  rw [if_neg hsome, Kv.exec_bind, exec_saveMetadata, Prog.resume_ok]
  rfl

structure Retained (own peer : Cid) (cutoff : F64) (kv kv' : Kv) (removed : Nat) : Prop where
  nothing : ∀ n, pageOf kv own peer n = .ok none → pageOf kv' own peer n = .ok none
  page : ∀ n p, pageOf kv own peer n = .ok (some p) → ∃ p', pageOf kv' own peer n = .ok (some p') ∧
    p'.messages.map ConversationMessage.norm = (p.messages.filter fun x => !older cutoff x).map ConversationMessage.norm
  unstarted : metadataOf kv own peer = .ok none → removed = 0
  count : ∀ m, metadataOf kv own peer = .ok (some m) →
    removed = (messagesTo kv own peer m.latestPage).countP (older cutoff) ∧
    ∀ n, m.latestPage < n → pageOf kv own peer n = .ok none
  marks : ∀ m, metadataOf kv own peer = .ok (some m) → ∃ m', metadataOf kv' own peer = .ok (some m') ∧
    m'.latestPage = m.latestPage ∧
    m'.totalMessageCount = F64.ofNat (messagesTo kv' own peer m'.latestPage).length ∧
    (∀ x ∈ messagesTo kv' own peer m'.latestPage, m'.oldestMessageTimestamp.le x.timestamp = true) ∧
    (removed ≠ 0 → (∃ x ∈ messagesTo kv' own peer m'.latestPage, m'.oldestMessageTimestamp = x.timestamp) ∨
      messagesTo kv' own peer m'.latestPage = [] ∧ m'.oldestMessageTimestamp = F64.ofNat 0)
  apart : Apart own peer kv kv'

theorem filter_not_older (messages : List ConversationMessage) :
    (messages.filter fun x => !older cutoff x) = messages.filter fun x => cutoff.le x.timestamp := by
  refine List.filter_congr fun x _ => ?_
  rw [older, Bool.not_not]

theorem afterPrune_some (cutoff : F64) (p : ConversationPage) : ∃ p', afterPrune cutoff (.ok (some p)) = .ok (some p') ∧
    (p'.messages = (p.messages.filter fun x => !older cutoff x) ∨
      p'.messages = (p.messages.filter fun x => !older cutoff x).map ConversationMessage.norm) := by
  rw [filter_not_older]
  refine ⟨_, rfl, ?_⟩
  split_ifs with hall
  · exact .inl (List.filter_eq_self.mpr (List.length_filter_eq_length_iff.mp hall)).symm
  · exact .inr rfl

theorem retained_nothing (h : Run kv) (hloads : Loads kv own peer) (hm : metadataOf kv own peer = .ok (some m))
    (hnone : (messagesTo kv own peer m.latestPage).countP (older cutoff) = 0) : Retained own peer cutoff kv kv 0 := by
  obtain ⟨c, hread⟩ := hloads.conversation h hm
  have hnewest := (h.reached.sited.2 own peer).newest m hm
  refine ⟨fun n hn => hn, fun n p hp => ⟨p, hp, ?_⟩, fun _ => rfl, fun m' hm' => ?_, fun m' hm' => ?_, .refl _ _ _⟩
  · have hle : n ≤ m.latestPage := by
      refine UInt32.not_lt.mp fun hn => ?_
      rw [hnewest n hn] at hp
      cases hp
    have hkept : ∀ x ∈ p.messages, (!older cutoff x) = true := by
      intro x hx
      have hnot := List.countP_eq_zero.mp hnone x (mem_messagesTo.mpr ⟨n, hle, p, hp, hx⟩)
      rw [Bool.not_eq_true', Bool.eq_false_iff]
      exact hnot
    rw [List.filter_eq_self.mpr hkept]
  · rw [hm, Except.ok.injEq, Option.some.injEq] at hm'
    rw [← hm', hnone]
    exact ⟨rfl, hnewest⟩
  · rw [hm, Except.ok.injEq, Option.some.injEq] at hm'
    subst hm'
    exact ⟨m, hm, rfl, hread.total.1, fun x hx => (hread.oldest hx).2, fun hne => absurd rfl hne⟩

theorem mem_afterPrune {latest : UInt32} (hpages : ∀ n, pageOf kv' own peer n = afterPrune cutoff (pageOf kv own peer n))
    (x : ConversationMessage) :
    (x ∈ messagesTo kv' own peer latest → ∃ y ∈ messagesTo kv own peer latest, cutoff.le y.timestamp = true ∧ (x = y ∨ x = y.norm)) ∧
    (x ∈ messagesTo kv own peer latest → cutoff.le x.timestamp = true →
      x ∈ messagesTo kv' own peer latest ∨ x.norm ∈ messagesTo kv' own peer latest) := by
  constructor
  · intro hx
    obtain ⟨n, hn, p', hp', hmem⟩ := mem_messagesTo.mp hx
    rw [hpages n] at hp'
    cases hp : pageOf kv own peer n with
    | error e =>
      rw [hp] at hp'
      cases hp'
    | ok found =>
      cases found with
      | none =>
        rw [hp] at hp'
        cases hp'
      | some p =>
        obtain ⟨q, hq, hmessages⟩ := afterPrune_some cutoff p
        rw [hp, hq, Except.ok.injEq, Option.some.injEq] at hp'
        subst hp'
        rw [filter_not_older] at hmessages
        rcases hmessages with hsame | hnorm
        · rw [hsame, List.mem_filter] at hmem
          exact ⟨x, mem_messagesTo.mpr ⟨n, hn, p, hp, hmem.1⟩, hmem.2, .inl rfl⟩
        · rw [hnorm, List.mem_map] at hmem
          obtain ⟨y, hy, rfl⟩ := hmem
          rw [List.mem_filter] at hy
          exact ⟨y, mem_messagesTo.mpr ⟨n, hn, p, hp, hy.1⟩, hy.2, .inr rfl⟩
  · intro hx hkept
    obtain ⟨n, hn, p, hp, hmem⟩ := mem_messagesTo.mp hx
    obtain ⟨q, hq, hmessages⟩ := afterPrune_some cutoff p
    have hp' := hpages n
    rw [hp, hq] at hp'
    rw [filter_not_older] at hmessages
    have hin : x ∈ p.messages.filter fun x => cutoff.le x.timestamp := List.mem_filter.mpr ⟨hmem, hkept⟩
    rcases hmessages with hsame | hnorm
    · exact .inl (mem_messagesTo.mpr ⟨n, hn, q, hp', hsame ▸ hin⟩)
    · exact .inr (mem_messagesTo.mpr ⟨n, hn, q, hp', hnorm ▸ List.mem_map_of_mem hin⟩)

theorem retained_some (h : Run kv) (hloads : Loads kv own peer) (hm : metadataOf kv own peer = .ok (some m))
    (hsome : (messagesTo kv own peer m.latestPage).countP (older cutoff) ≠ 0) (hnow : now.isFinite = true) : ∃ kv' m',
    Kv.exec (pruneOlderThan own peer cutoff now) kv =
      (.ok ((messagesTo kv own peer m.latestPage).countP (older cutoff)), kv') ∧
    Retained own peer cutoff kv kv' ((messagesTo kv own peer m.latestPage).countP (older cutoff)) ∧
    Run kv' ∧ Loads kv' own peer ∧ metadataOf kv' own peer = .ok (some m') ∧
    (messagesTo kv' own peer m'.latestPage).countP (older cutoff) = 0 := by
  obtain ⟨hl, hg⟩ := h.good
  obtain ⟨c, hread⟩ := hloads.conversation h hm
  have hsited := h.reached.sited.2 own peer
  obtain ⟨kv₁, hrun, hpages₁⟩ := exec_prune_some h hloads hm hsome now
  -- What the metadata says is read back.
  have hreadable : (m.pruned ((messagesTo kv own peer m.latestPage).countP (older cutoff))
      (((messagesTo kv own peer m.latestPage).filter fun x => cutoff.le x.timestamp).foldl oldestOf none) now).Readable := by
    obtain ⟨kv₂, hloop, -⟩ := exec_prunePages cutoff hsited.placed (nodup_pagesTo m.latestPage)
      (fun n _ => hloads.page h n) 0 none
    rw [Nat.zero_add, ← messagesTo] at hloop
    exact pruned_readable hl (hg own peer) hm hloop hnow
  generalize hgone : (messagesTo kv own peer m.latestPage).countP (older cutoff) = gone at hsome hrun hreadable ⊢
  generalize holdest : ((messagesTo kv own peer m.latestPage).filter fun x => cutoff.le x.timestamp).foldl oldestOf none =
    oldest at hrun hreadable
  generalize hkv' : kv₁.insert (Place.metadata own peer).name (metadataBytes (m.pruned gone oldest now)) = kv' at hrun
  have hmeta : metadataOf kv' own peer = .ok (some (m.pruned gone oldest now).norm) := by
    rw [← hkv', metadataOf_insert_metadata, if_pos rfl, recordRead_metadataBytes]
    exact ⟨hreadable, rfl⟩
  have hpages : ∀ n, pageOf kv' own peer n = afterPrune cutoff (pageOf kv own peer n) := by
    intro n
    rw [← hkv', pageOf_insert_metadata, hpages₁ n]
    split_ifs with hn
    · rfl
    · rw [mem_pagesTo, UInt32.not_le] at hn
      rw [hsited.newest m hm n hn]
      rfl
  have hstep : Kv.exec ((StoreOp.pruneOlderThan cutoff now).program own peer) kv = (.ok (), kv') :=
    StoreOp.exec_discard.mpr ⟨gone, hrun⟩
  have hrun' : Run kv' := .step own peer (.pruneOlderThan cutoff now) h trivial hstep
  have hloads' : Loads kv' own peer := by
    refine (loads_of_metadata hmeta).mpr fun n _ => ?_
    obtain ⟨found, hfound⟩ := hloads.page h n
    rw [hpages n, hfound]
    cases found <;> exact ⟨_, rfl⟩
  have hapart : Apart own peer kv kv' := by
    have htouched := h.reached.touched own peer (.pruneOlderThan cutoff now)
    rw [hstep] at htouched
    exact htouched.apart
  obtain ⟨c', hread'⟩ := hloads'.conversation hrun' hmeta
  refine ⟨kv', _, hrun, ⟨fun n hn => ?_, fun n p hp => ?_, fun hnone => ?_, fun x hx => ?_, fun x hx => ?_, hapart⟩, hrun',
    hloads', hmeta, List.countP_eq_zero.mpr fun x hx => ?_⟩
  · rw [hpages n, hn]
    rfl
  · obtain ⟨p', hp', hmessages⟩ := afterPrune_some cutoff p
    refine ⟨p', by rw [hpages n, hp, hp'], ?_⟩
    have hsound := sound_of_pageOf hp
    rcases hmessages with hsame | hnorm
    · rw [hsame]
    · rw [hnorm, List.map_map]
      exact List.map_congr_left fun x hx => (hsound.messages x (List.mem_of_mem_filter hx)).norm_norm
  · rw [hm] at hnone
    cases hnone
  · rw [hm, Except.ok.injEq, Option.some.injEq] at hx
    rw [← hx, hgone]
    exact ⟨rfl, hsited.newest m hm⟩
  · rw [hm, Except.ok.injEq, Option.some.injEq] at hx
    subst hx
    refine ⟨_, hmeta, rfl, hread'.total.1, fun x hx => (hread'.oldest hx).2, fun _ => ?_⟩
    cases oldest with
    | none =>
      right
      have hnil := oldest_isNone (fun x hx => (hread.oldest (List.mem_of_mem_filter hx)).1) holdest
      refine ⟨List.eq_nil_iff_forall_not_mem.mpr fun x hx => ?_, ?_⟩
      · obtain ⟨y, hy, hkept, -⟩ := (mem_afterPrune hpages x).1 hx
        have hmem : y ∈ (messagesTo kv own peer m.latestPage).filter fun x => cutoff.le x.timestamp :=
          List.mem_filter.mpr ⟨hy, hkept⟩
        rw [hnil] at hmem
        cases hmem
      · have hzero := F64.norm_ofNat (n := 0) (by decide)
        simp only [ConversationMetadata.norm, ConversationMetadata.pruned, Option.getD_none, hzero]
    | some o =>
      left
      obtain ⟨y, hy, rfl⟩ := (oldest_choice holdest).resolve_left fun hnone => by cases hnone
      obtain ⟨hy, hkept⟩ := List.mem_filter.mp hy
      rcases (mem_afterPrune hpages y).2 hy hkept with hin | hin
      · exact ⟨y, hin, hread.norm_timestamp hy⟩
      · exact ⟨y.norm, hin, rfl⟩
  · obtain ⟨y, -, hkept, hxy⟩ := (mem_afterPrune hpages x).1 hx
    have hle : cutoff.le x.timestamp = true := by
      rcases hxy with rfl | rfl
      · exact hkept
      · exact (F64.le_norm _ _).trans hkept
    simp [older, hle]

/-- A conversation that can be loaded is left without what is older than the cutoff, and with nothing else missing. -/
theorem retention_exact (h : Run kv) (hloads : Loads kv own peer) (cutoff : F64) (hnow : now.isFinite = true) :
    ∃ removed kv', Kv.exec (pruneOlderThan own peer cutoff now) kv = (.ok removed, kv') ∧
      Retained own peer cutoff kv kv' removed ∧ (removed = 0 → kv' = kv) ∧
      (cutoff.isNaN = false → ∀ n p, pageOf kv own peer n = .ok (some p) → ∀ x ∈ p.messages,
        older cutoff x = x.timestamp.lt cutoff) ∧
      ∀ later, Kv.exec (pruneOlderThan own peer cutoff later) kv' = (.ok 0, kv') := by
  have hlt : cutoff.isNaN = false → ∀ n p, pageOf kv own peer n = .ok (some p) → ∀ x ∈ p.messages,
      older cutoff x = x.timestamp.lt cutoff := by
    intro hcutoff n p hp x hx
    exact older_eq hcutoff (F64.not_isNaN_of_isFinite ((sound_of_pageOf hp).messages x hx).timestamp)
  obtain ⟨existing, hm, -⟩ := loads_iff.mp hloads
  cases existing with
  | none =>
    have hrun : ∀ later, Kv.exec (pruneOlderThan own peer cutoff later) kv = (.ok 0, kv) := by
      intro later
      rw [pruneOlderThan, Kv.exec_bind, exec_loadMetadata, hm]
      rfl
    have hnone := (h.reached.sited.2 own peer).unstarted hm
    refine ⟨0, kv, hrun now, ⟨fun n hn => hn, fun n p hp => ?_, fun _ => rfl, fun m hm' => ?_, fun m hm' => ?_, .refl _ _ _⟩,
      fun _ => rfl, hlt, hrun⟩
    · rw [hnone n] at hp
      cases hp
    · rw [hm] at hm'
      cases hm'
    · rw [hm] at hm'
      cases hm'
  | some m =>
    by_cases hnone : (messagesTo kv own peer m.latestPage).countP (older cutoff) = 0
    · have hrun := exec_prune_nothing h hloads hm hnone
      exact ⟨0, kv, hrun now, retained_nothing h hloads hm hnone, fun _ => rfl, hlt, hrun⟩
    · obtain ⟨kv', m', hrun, hret, hrun', hloads', hm', hnone'⟩ := retained_some h hloads hm hnone hnow
      exact ⟨_, kv', hrun, hret, fun hzero => absurd hzero hnone, hlt, exec_prune_nothing hrun' hloads' hm' hnone'⟩

end Call

/-! ## One message, and two -/

theorem retention_exact_first : ∃ kv removed kv', Run kv ∧ Loads kv 1 2 ∧
    Kv.exec (pruneOlderThan 1 2 (F64.ofNat 2) (F64.ofNat 20)) kv = (.ok removed, kv') ∧
    Retained 1 2 (F64.ofNat 2) kv kv' removed ∧ removed = 1 ∧
    ∀ later, Kv.exec (pruneOlderThan 1 2 (F64.ofNat 2) later) kv' = (.ok 0, kv') := by
  obtain ⟨kv, r, hadded, hmeta, hpage⟩ := exec_append_first
  have hrun : Run kv := .step 1 2 (.append firstMessage none (F64.ofNat 10)) .empty sound_first.timestamp
    (StoreOp.exec_discard.mpr ⟨_, hadded⟩)
  have hloads : Loads kv 1 2 := by
    refine (loads_of_metadata hmeta).mpr fun n hn => ?_
    obtain rfl : n = 0 := UInt32.le_zero_iff.mp hn
    exact ⟨_, hpage⟩
  obtain ⟨removed, kv', hprune, hret, -, -, hagain⟩ :=
    retention_exact hrun hloads (F64.ofNat 2) (F64.isFinite_ofNat (n := 20) (by decide))
  refine ⟨kv, removed, kv', hrun, hloads, hprune, hret, ?_, hagain⟩
  have hmessages : messagesTo kv 1 2 firstMetadata.latestPage = [firstMessage.norm] := by
    show loadedOn kv 1 2 0 ++ [] = _
    rw [List.append_nil, loadedOn_eq hpage, ConversationPage.norm, messages_first]
    rfl
  have hold : older (F64.ofNat 2) firstMessage.norm = true := by decide +kernel
  rw [(hret.count _ hmeta).1, hmessages, List.countP_singleton, if_pos hold]

theorem messages_second {t : F64} (h : earlier firstMessage.norm (secondMessage t) = true) :
    (secondDraft.placed 2 (secondMessage t)).messages = [firstMessage.norm, secondMessage t] := by
  rw [Draft.placed, if_neg not_full_second, place, messages_firstPage]
  refine List.mergeSort_of_pairwise ?_
  simpa using h

theorem reads_second {t : F64} (ht : t.isFinite = true) (h : earlier firstMessage.norm (secondMessage t) = true)
    (hindex : (secondDraft.recorded 1 (secondMessage t) (F64.ofNat 11)).Readable) :
    ∃ kv, Run kv ∧ metadataOf kv 1 2 = .ok (some (secondDraft.recorded 1 (secondMessage t) (F64.ofNat 11)).norm) ∧
      ∃ p, pageOf kv 1 2 0 = .ok (some p) ∧ p.messages = [firstMessage.norm.norm, (secondMessage t).norm] := by
  obtain ⟨kv, r, kv', placed, hfirst, hb, hkv', hsecond⟩ := exec_append_second t
  have hrun : Run kv := .step 1 2 (.append firstMessage none (F64.ofNat 10)) .empty sound_first.timestamp
    (StoreOp.exec_discard.mpr ⟨_, hfirst⟩)
  have hreadable : (secondDraft.placed 2 (secondMessage t)).Readable := by
    rw [Draft.placed, if_neg not_full_second]
    refine (readable_place fun x hx => ?_).mpr (sound_second ht).readable
    rw [messages_firstPage, List.mem_singleton] at hx
    exact hx ▸ sound_first.norm
  refine ⟨kv', .step 1 2 (.append (secondMessage t) none (F64.ofNat 11)) hrun ht (StoreOp.exec_discard.mpr ⟨_, hsecond⟩),
    ?_, (secondDraft.placed 2 (secondMessage t)).norm, ?_, ?_⟩
  · rw [hkv', metadataOf_insert_metadata, if_pos rfl, (recordRead_metadataBytes _ _).mpr ⟨hindex, rfl⟩]
  · rw [hkv', pageOf_insert_metadata, pageOf_saved hb hreadable, if_pos rfl]
  · rw [ConversationPage.norm, messages_second h]
    rfl

theorem foundIn_head {kv : Kv} {own peer : Cid} {m : ConversationMetadata} {p : ConversationPage} {a : ConversationMessage}
    {rest : List ConversationMessage} (hmeta : metadataOf kv own peer = .ok (some m)) (hlatest : m.latestPage = 0)
    (hpage : pageOf kv own peer 0 = .ok (some p)) (hmessages : p.messages = a :: rest) :
    ∃ f, foundIn kv own peer a.id = .ok (some f) ∧ f.metadata = m ∧ f.page = p ∧ f.removed.messages = rest := by
  obtain ⟨peerCid, number, messages, times⟩ := p
  dsimp only at hmessages
  subst hmessages
  refine ⟨⟨m, ⟨peerCid, number, a :: rest, times⟩, ⟨0, Nat.succ_pos _⟩⟩, ?_, rfl, rfl, rfl⟩
  have hindex : (a :: rest).findFinIdx? (hasId a.id) = some ⟨0, Nat.succ_pos _⟩ := by
    rw [List.findFinIdx?_cons, if_pos (by simp [hasId])]
    rfl
  rw [foundIn, hmeta]
  simp only [hlatest, show (pagesTo 0).reverse = [0] from rfl, foundOn, hpage, hindex]

/-- The message of time 1 is taken away before the prune, which finds nothing older than 3 and leaves the mark at 1, with
only a message of time 5 left. -/
theorem prune_leaves_old_mark : ∃ kv kv' m x, Run kv ∧
    Kv.exec (remove 1 2 "m1" (F64.ofNat 12)) kv = (.ok true, kv') ∧ Run kv' ∧ Loads kv' 1 2 ∧
    Kv.exec (pruneOlderThan 1 2 (F64.ofNat 3) (F64.ofNat 20)) kv' = (.ok 0, kv') ∧
    metadataOf kv' 1 2 = .ok (some m) ∧ m.oldestMessageTimestamp = F64.ofNat 1 ∧
    messagesTo kv' 1 2 m.latestPage = [x] ∧ x.timestamp = F64.ofNat 5 := by
  obtain ⟨kv, hrun, hmeta, p, hpage, hmessages⟩ := reads_second (t := F64.ofNat 5) (F64.isFinite_ofNat (by decide))
    (by decide +kernel) (by constructor <;> decide +kernel)
  have hlatest : (secondDraft.recorded 1 (secondMessage (F64.ofNat 5)) (F64.ofNat 11)).norm.latestPage = 0 := by
    decide +kernel
  have hmark : (secondDraft.recorded 1 (secondMessage (F64.ofNat 5)) (F64.ofNat 11)).norm.oldestMessageTimestamp.norm =
    F64.ofNat 1 := by decide +kernel
  have htime : (secondMessage (F64.ofNat 5)).norm.norm.timestamp = F64.ofNat 5 := by decide +kernel
  have hyoung : older (F64.ofNat 3) (secondMessage (F64.ofNat 5)).norm.norm = false := by decide +kernel
  generalize (secondDraft.recorded 1 (secondMessage (F64.ofNat 5)) (F64.ofNat 11)).norm = m at hmeta hlatest hmark
  obtain ⟨f, hf, rfl, hfp, hleft⟩ := foundIn_head hmeta hlatest hpage hmessages
  obtain ⟨kv', hremoved, hmeta', hpage', -⟩ := exec_remove_made (hrun.reached.sited.2 1 2).placed hf
    (F64.isFinite_ofNat (n := 12) (by decide))
  have hrun' : Run kv' := .step 1 2 (.remove "m1" (F64.ofNat 12)) hrun trivial (StoreOp.exec_discard.mpr ⟨_, hremoved⟩)
  rw [show f.page.pageNumber = 0 by rw [hfp, ((hrun.reached.sited.2 1 2).placed.page 0 p hpage).2]] at hpage'
  have hmessages' : ∀ n, n = 0 → messagesTo kv' 1 2 n = [(secondMessage (F64.ofNat 5)).norm.norm] := by
    rintro n rfl
    show loadedOn kv' 1 2 0 ++ [] = _
    rw [List.append_nil, loadedOn_eq hpage', ConversationPage.norm, hleft]
    rfl
  have hloads : Loads kv' 1 2 := by
    refine (loads_of_metadata hmeta').mpr fun n hn => ?_
    have hle : n ≤ f.metadata.latestPage := hn
    rw [hlatest] at hle
    obtain rfl : n = 0 := UInt32.le_zero_iff.mp hle
    exact ⟨_, hpage'⟩
  refine ⟨kv, kv', _, _, hrun, hremoved, hrun', hloads, ?_, hmeta', hmark, hmessages' _ hlatest, htime⟩
  refine exec_prune_nothing hrun' hloads hmeta' ?_ _
  show (messagesTo kv' 1 2 f.metadata.latestPage).countP _ = 0
  rw [hmessages' _ hlatest, List.countP_singleton, if_neg (by rw [hyoung]; decide)]

end CitadelAgent.Conversations
