import CitadelAgent.Conversations.StoreSpec

/-!
# The shape of a page

What the representation invariant says of a page depends on its messages' timestamps alone.

* `ConversationPage.Ok` : a page at its place, not over-full, in order and within its bounds.
-/

namespace CitadelAgent.Conversations
open Store StoreRules

variable {messages : List ConversationMessage}

namespace ConversationPage

def times (p : ConversationPage) : List Int := p.messages.map fun m => m.timestamp.scaled

def Within (messages : List ConversationMessage) (t : PageTimestamps) : Prop :=
  messages ≠ [] → t.minTimestamp.isFinite = true ∧ t.maxTimestamp.isFinite = true ∧
    ∀ m ∈ messages, t.minTimestamp.scaled ≤ m.timestamp.scaled ∧ m.timestamp.scaled ≤ t.maxTimestamp.scaled

/-- Page `number` of a conversation with `peer`, as the store keeps it. -/
structure Ok (peer : Cid) (number : UInt32) (p : ConversationPage) : Prop where
  peerCid : p.peerCid = peer
  pageNumber : p.pageNumber = number
  writable : p.FiniteReactions
  length : p.messages.length ≤ MESSAGES_PER_PAGE
  finite : ∀ m ∈ p.messages, m.timestamp.isFinite = true
  sorted : p.messages.Pairwise fun a b => a.timestamp.scaled ≤ b.timestamp.scaled
  within : Within p.messages p.pageTimestamps

@[simp] theorem times_norm (p : ConversationPage) : p.norm.times = p.times := by
  simp [times, norm, ConversationMessage.norm]

theorem length_times (p : ConversationPage) : p.times.length = p.messages.length := List.length_map _

variable {peer : Cid} {number : UInt32} {p : ConversationPage}

theorem Ok.retimed {t : PageTimestamps} (h : p.Ok peer number)
    (hw : ({ p with messages, pageTimestamps := t } : ConversationPage).FiniteReactions)
    (ht : messages.map (fun m => m.timestamp.norm) = p.messages.map fun m => m.timestamp.norm)
    (hb : t.minTimestamp.norm = p.pageTimestamps.minTimestamp.norm ∧ t.maxTimestamp.norm = p.pageTimestamps.maxTimestamp.norm) :
    ({ p with messages, pageTimestamps := t } : ConversationPage).Ok peer number := by
  have hmem : ∀ m ∈ messages, ∃ m' ∈ p.messages, m'.timestamp.isFinite = m.timestamp.isFinite ∧
      m'.timestamp.scaled = m.timestamp.scaled := by
    intro m hm
    have hin : m.timestamp.norm ∈ p.messages.map fun m => m.timestamp.norm := by
      rw [← ht]
      exact List.mem_map_of_mem hm
    obtain ⟨m', hm', he⟩ := List.mem_map.mp hin
    refine ⟨m', hm', ?_, ?_⟩
    · rw [← F64.isFinite_norm, he, F64.isFinite_norm]
    · rw [← F64.scaled_norm, he, F64.scaled_norm]
  refine ⟨h.peerCid, h.pageNumber, hw, ?_, ?_, ?_, ?_⟩
  · have hlen := congrArg List.length ht
    simp only [List.length_map] at hlen
    rw [hlen]
    exact h.length
  · intro m hm
    obtain ⟨m', hm', hfin, -⟩ := hmem m hm
    rw [← hfin]
    exact h.finite m' hm'
  · have hs : (p.messages.map fun m => m.timestamp.norm).Pairwise fun a b => a.scaled ≤ b.scaled := by
      rw [List.pairwise_map]
      simpa using h.sorted
    rw [← ht, List.pairwise_map] at hs
    simpa using hs
  · intro hne
    have hne' : p.messages ≠ [] := by
      intro hnil
      rw [hnil, List.map_nil, List.map_eq_nil_iff] at ht
      exact hne ht
    obtain ⟨hmin, hmax, hall⟩ := h.within hne'
    refine ⟨?_, ?_, fun m hm => ?_⟩
    · rw [← F64.isFinite_norm, hb.1, F64.isFinite_norm, hmin]
    · rw [← F64.isFinite_norm, hb.2, F64.isFinite_norm, hmax]
    · obtain ⟨m', hm', -, hval⟩ := hmem m hm
      obtain ⟨hlo, hhi⟩ := hall m' hm'
      have h1 := congrArg F64.scaled hb.1
      have h2 := congrArg F64.scaled hb.2
      simp only [F64.scaled_norm] at h1 h2
      rw [h1, h2, ← hval]
      exact ⟨hlo, hhi⟩

theorem Ok.norm (h : p.Ok peer number) (hw : p.norm.FiniteReactions) : p.norm.Ok peer number :=
  h.retimed hw (by simp [ConversationMessage.norm]) ⟨by simp [PageTimestamps.norm], by simp [PageTimestamps.norm]⟩

theorem Ok.sublist (h : p.Ok peer number) (hs : messages.Sublist p.messages)
    (hw : ({ p with messages } : ConversationPage).FiniteReactions) : ({ p with messages } : ConversationPage).Ok peer number where
  peerCid := h.peerCid
  pageNumber := h.pageNumber
  writable := hw
  length := hs.length_le.trans h.length
  finite := fun m hm => h.finite m (hs.subset hm)
  sorted := h.sorted.sublist hs
  within := by
    intro hne
    obtain ⟨hmin, hmax, hall⟩ := h.within fun hnil => hne (List.sublist_nil.mp (hnil ▸ hs))
    exact ⟨hmin, hmax, fun m hm => hall m (hs.subset hm)⟩

theorem within_bounds (hfin : ∀ m ∈ messages, m.timestamp.isFinite = true)
    (hs : messages.Pairwise fun a b => a.timestamp.scaled ≤ b.timestamp.scaled) (none_ : F64) :
    Within messages (bounds messages none_) := by
  intro hne
  obtain ⟨first, hfirst⟩ : ∃ first, messages.head? = some first := ⟨_, List.head?_eq_some_head hne⟩
  obtain ⟨last, hlast⟩ : ∃ last, messages.getLast? = some last := ⟨_, List.getLast?_eq_some_getLast hne⟩
  have hfm := List.mem_of_head? hfirst
  have hlm := List.mem_of_getLast? hlast
  simp only [bounds, hfirst, hlast, Option.map_some, Option.getD_some]
  refine ⟨hfin first hfm, hfin last hlm, fun m hm => ⟨?_, ?_⟩⟩
  · cases messages with
    | nil => cases hm
    | cons x rest =>
      obtain rfl : x = first := by simpa using hfirst
      rcases List.mem_cons.mp hm with rfl | hrest
      · exact le_refl _
      · exact (List.pairwise_cons.mp hs).1 m hrest
  · obtain ⟨init, rfl⟩ := List.getLast?_eq_some_iff.mp hlast
    rcases List.mem_append.mp hm with hinit | hl
    · exact (List.pairwise_append.mp hs).2.2 m hinit last (by simp)
    · rw [List.mem_singleton.mp hl]

theorem pairwise_mergeSort_earlier (messages : List ConversationMessage) :
    (messages.mergeSort earlier).Pairwise fun a b => a.timestamp.scaled ≤ b.timestamp.scaled := by
  have hs : (messages.mergeSort earlier).Pairwise fun a b => earlier a b = true :=
    List.pairwise_mergeSort (by intro a b c; simp only [earlier, decide_eq_true_eq]; omega)
      (by intro a b; simp only [earlier, Bool.or_eq_true, decide_eq_true_eq]; omega) messages
  exact hs.imp fun hab => F64.scaled_le_of_totalKey_le (by simpa [earlier] using hab)

theorem Ok.place {message : ConversationMessage} (h : p.Ok peer number) (hroom : p.messages.length < MESSAGES_PER_PAGE)
    (hfin : message.timestamp.isFinite = true) (hw : (place p message).FiniteReactions) :
    (place p message).Ok peer number := by
  have hperm := List.mergeSort_perm (p.messages ++ [message]) earlier
  have hall : ∀ m ∈ (p.messages ++ [message]).mergeSort earlier, m.timestamp.isFinite = true := by
    intro m hm
    rcases List.mem_append.mp (hperm.mem_iff.mp hm) with hold | hnew
    · exact h.finite m hold
    · rw [List.mem_singleton.mp hnew, hfin]
  have hsorted := pairwise_mergeSort_earlier (p.messages ++ [message])
  refine ⟨h.peerCid, h.pageNumber, hw, ?_, hall, hsorted, within_bounds hall hsorted _⟩
  show ((p.messages ++ [message]).mergeSort earlier).length ≤ MESSAGES_PER_PAGE
  rw [hperm.length_eq, List.length_append, List.length_singleton]
  omega

theorem times_place (p : ConversationPage) (message : ConversationMessage) :
    (StoreRules.place p message).times.Perm (message.timestamp.scaled :: p.times) := by
  have hperm := (List.mergeSort_perm (p.messages ++ [message]) earlier).map fun m => m.timestamp.scaled
  rw [List.map_append, List.map_singleton] at hperm
  exact hperm.trans (List.perm_append_singleton _ _)

theorem Ok.filter {keep : ConversationMessage → Bool} (h : p.Ok peer number) {none_ : F64}
    (hw : ({ p with messages := p.messages.filter keep, pageTimestamps := bounds (p.messages.filter keep) none_ } :
      ConversationPage).FiniteReactions) :
    ({ p with messages := p.messages.filter keep, pageTimestamps := bounds (p.messages.filter keep) none_ } :
      ConversationPage).Ok peer number := by
  have hsub := List.filter_sublist (p := keep) (l := p.messages)
  have hfin : ∀ m ∈ p.messages.filter keep, m.timestamp.isFinite = true := fun m hm => h.finite m (hsub.subset hm)
  have hsorted := h.sorted.sublist hsub
  exact ⟨h.peerCid, h.pageNumber, hw, hsub.length_le.trans h.length, hfin, hsorted, within_bounds hfin hsorted _⟩

theorem ok_emptyPage (peer : Cid) (number : UInt32) (at_ : F64) : (emptyPage peer number at_).Ok peer number where
  peerCid := rfl
  pageNumber := rfl
  writable := fun _ hm => by cases hm
  length := Nat.zero_le _
  finite := fun _ hm => by cases hm
  sorted := .nil
  within := fun hne => absurd rfl hne

end ConversationPage

end CitadelAgent.Conversations
