import CitadelAgent.Conversations.StoredRead

/-!
# The stored form: what is written reads back the same

* `eq` : the derived `PartialEq` of each stored type, for which the two zeros are one number;
* `stored_round_trip` : pages and metadata of finite numbers read back as they were written.
-/

namespace CitadelAgent.Conversations

/-! ## Derived equality -/

/-- `PartialEq` of an `Option`. -/
def optEq {α : Type} (eq : α → α → Bool) : Option α → Option α → Bool
  | none, none => true
  | some a, some b => eq a b
  | _, _ => false

/-- `PartialEq` of a `Vec`. -/
def listEq {α : Type} (eq : α → α → Bool) (as bs : List α) : Bool := as.isEqv bs eq

namespace Attachment

def eq (a b : Attachment) : Bool :=
  a.fileId = b.fileId && a.fileName = b.fileName && a.fileSize.eq b.fileSize && a.fileType = b.fileType &&
    a.thumbnail = b.thumbnail

def numbers (a : Attachment) : List F64 := [a.fileSize]

end Attachment

namespace Reaction

def eq (a b : Reaction) : Bool :=
  a.emoji = b.emoji && a.reactorCid = b.reactorCid && a.at_.eq b.at_ && a.active = b.active

def numbers (r : Reaction) : List F64 := [r.at_]

end Reaction

namespace ConversationMessage

def eq (a b : ConversationMessage) : Bool :=
  a.id = b.id && a.content = b.content && a.senderCid = b.senderCid && a.recipientCid = b.recipientCid &&
    a.timestamp.eq b.timestamp && a.index.eq b.index && a.status = b.status && a.error = b.error &&
    a.replyTo = b.replyTo && optEq F64.eq a.editedAt b.editedAt && optEq (listEq Reaction.eq) a.reactions b.reactions &&
    a.mentions = b.mentions && optEq (listEq Attachment.eq) a.attachments b.attachments &&
    a.messageType = b.messageType && a.documentId = b.documentId && a.documentTitle = b.documentTitle &&
    a.transferId = b.transferId && a.fileName = b.fileName && optEq F64.eq a.fileSize b.fileSize &&
    a.fileType = b.fileType && a.fileThumbnail = b.fileThumbnail && a.transferMode = b.transferMode &&
    a.transferState = b.transferState && optEq F64.eq a.transferProgress b.transferProgress &&
    a.virtualPath = b.virtualPath

def numbers (m : ConversationMessage) : List F64 :=
  [m.timestamp, m.index] ++ m.editedAt.toList ++ (m.reactions.getD []).flatMap Reaction.numbers ++
    (m.attachments.getD []).flatMap Attachment.numbers ++ m.fileSize.toList ++ m.transferProgress.toList

/-- Its reactions and their texts are no longer than 64-bit lengths, as those of a `Vec` and a `String` are. -/
def Sized (m : ConversationMessage) : Prop :=
  ∀ list, m.reactions = some list → list.length < 2 ^ 64 ∧ Reactions.ShortEmojis list

end ConversationMessage

namespace PageTimestamps

def eq (a b : PageTimestamps) : Bool := a.minTimestamp.eq b.minTimestamp && a.maxTimestamp.eq b.maxTimestamp

def numbers (t : PageTimestamps) : List F64 := [t.minTimestamp, t.maxTimestamp]

end PageTimestamps

namespace ConversationPage

def eq (a b : ConversationPage) : Bool :=
  a.peerCid = b.peerCid && a.pageNumber = b.pageNumber && listEq ConversationMessage.eq a.messages b.messages &&
    a.pageTimestamps.eq b.pageTimestamps

def numbers (p : ConversationPage) : List F64 :=
  p.messages.flatMap ConversationMessage.numbers ++ p.pageTimestamps.numbers

end ConversationPage

namespace ConversationMetadata

def eq (a b : ConversationMetadata) : Bool :=
  a.peerCid = b.peerCid && a.ownerCid = b.ownerCid && a.peerUsername = b.peerUsername &&
    a.totalMessageCount.eq b.totalMessageCount && a.oldestMessageTimestamp.eq b.oldestMessageTimestamp &&
    a.newestMessageTimestamp.eq b.newestMessageTimestamp && a.latestPage = b.latestPage &&
    a.messagesPerPage = b.messagesPerPage && a.unreadCount.eq b.unreadCount &&
    a.lastMessageIndex.eq b.lastMessageIndex && a.lastUpdated.eq b.lastUpdated

def numbers (m : ConversationMetadata) : List F64 :=
  [m.totalMessageCount, m.oldestMessageTimestamp, m.newestMessageTimestamp, m.unreadCount, m.lastMessageIndex,
    m.lastUpdated]

end ConversationMetadata

/-! ## What reads back is equal to what was written -/

theorem F64.norm_eq {x : F64} (h : x.isFinite = true) : x.norm.eq x = true := by
  rw [F64.eq_iff (by rw [F64.isFinite_norm, h]) h, F64.scaled_norm]

theorem listEq_map {α : Type} {eq : α → α → Bool} {f : α → α} {list : List α} (h : ∀ a ∈ list, eq (f a) a = true) :
    listEq eq (list.map f) list = true := by
  induction list with
  | nil => rfl
  | cons a list ih =>
    have ha := h a List.mem_cons_self
    have hrest := ih fun b hb => h b (List.mem_cons_of_mem _ hb)
    simp only [listEq, List.map_cons, List.isEqv_cons_cons, Bool.and_eq_true] at hrest ⊢
    exact ⟨ha, hrest⟩

theorem optEq_map {α : Type} {eq : α → α → Bool} {f : α → α} {o : Option α} (h : ∀ a, o = some a → eq (f a) a = true) :
    optEq eq (o.map f) o = true := by
  cases o with
  | none => rfl
  | some a => exact h a rfl

theorem map_eq_self {α : Type} {f : α → α} {list : List α} (h : ∀ a ∈ list, f a = a) : list.map f = list := by
  rw [List.map_congr_left h, List.map_id']

theorem filter_isFinite {o : Option F64} (h : ∀ x, o = some x → x.isFinite = true) : o.filter F64.isFinite = o := by
  cases o with
  | none => rfl
  | some x => simp [Option.filter, h x rfl]

def AllFinite (numbers : List F64) : Prop := ∀ x ∈ numbers, x.isFinite = true

def NoNegativeZero (numbers : List F64) : Prop := ∀ x ∈ numbers, x.norm = x

variable {P : F64 → Prop}

namespace ConversationMessage

variable {m : ConversationMessage}

theorem numbers_optional (h : ∀ x ∈ m.numbers, P x) :
    (∀ x, m.editedAt = some x → P x) ∧ (∀ x, m.fileSize = some x → P x) ∧ ∀ x, m.transferProgress = some x → P x := by
  refine ⟨fun x hx => h x ?_, fun x hx => h x ?_, fun x hx => h x ?_⟩ <;> simp [numbers, hx]

theorem numbers_required (h : ∀ x ∈ m.numbers, P x) : P m.timestamp ∧ P m.index :=
  ⟨h _ (by simp [numbers]), h _ (by simp [numbers])⟩

theorem numbers_reactions (h : ∀ x ∈ m.numbers, P x) {list : List Reaction} (hl : m.reactions = some list) : ∀ r ∈ list, P r.at_ := by
  intro r hr
  refine h _ ?_
  simp only [numbers, hl, Option.getD_some, List.mem_append, List.mem_flatMap]
  exact .inl (.inl (.inl (.inr ⟨r, hr, List.mem_singleton_self _⟩)))

theorem numbers_attachments (h : ∀ x ∈ m.numbers, P x) {list : List Attachment}
    (hl : m.attachments = some list) : ∀ a ∈ list, P a.fileSize := by
  intro a ha
  refine h _ ?_
  simp only [numbers, hl, Option.getD_some, List.mem_append, List.mem_flatMap]
  exact .inl (.inl (.inr ⟨a, ha, List.mem_singleton_self _⟩))

theorem rereadReactions_eq (hs : m.Sized) (hne : m.reactions ≠ some []) :
    m.rereadReactions = m.reactions.map (List.map Reaction.norm) := by
  unfold rereadReactions
  cases hr : m.reactions with
  | none => rfl
  | some list =>
    obtain ⟨hlen, hshort⟩ := hs list hr
    have hlist : list ≠ [] := fun hnil => hne (hnil ▸ hr)
    rw [Option.bind_some, Option.map_some, Reactions.reread_of_length_lt hshort hlen hlist]

theorem sound (hfin : AllFinite m.numbers) (hs : m.Sized) : m.Sound where
  timestamp := (numbers_required hfin).1
  index := (numbers_required hfin).2
  attachments := fun _ hl => numbers_attachments hfin hl
  reactions := fun list hl => ⟨numbers_reactions hfin hl, (hs list hl).2⟩

theorem norm_eq (hfin : AllFinite m.numbers) (hs : m.Sized) (hne : m.reactions ≠ some []) : m.norm.eq m = true := by
  obtain ⟨htime, hindex⟩ := numbers_required hfin
  obtain ⟨hedited, hsize, hprogress⟩ := numbers_optional hfin
  have hreactions : optEq (listEq Reaction.eq) m.rereadReactions m.reactions = true := by
    rw [rereadReactions_eq hs hne]
    refine optEq_map fun list hl => listEq_map fun r hr => ?_
    simp [Reaction.eq, Reaction.norm, F64.norm_eq (numbers_reactions hfin hl r hr)]
  have hattachments : optEq (listEq Attachment.eq) (m.attachments.map (List.map Attachment.norm)) m.attachments = true := by
    refine optEq_map fun list hl => listEq_map fun a ha => ?_
    simp [Attachment.eq, Attachment.norm, F64.norm_eq (numbers_attachments hfin hl a ha)]
  have hopt : ∀ o : Option F64, (∀ x, o = some x → x.isFinite = true) →
      optEq F64.eq ((o.filter F64.isFinite).map F64.norm) o = true := by
    intro o ho
    rw [filter_isFinite ho]
    exact optEq_map fun x hx => F64.norm_eq (ho x hx)
  simp [eq, norm, F64.norm_eq htime, F64.norm_eq hindex, hreactions, hattachments, hopt _ hedited, hopt _ hsize,
    hopt _ hprogress]

theorem norm_eq_self (hfin : AllFinite m.numbers) (hz : NoNegativeZero m.numbers) (hs : m.Sized)
    (hne : m.reactions ≠ some []) : m.norm = m := by
  obtain ⟨htime, hindex⟩ := numbers_required hz
  obtain ⟨hedited, hsize, hprogress⟩ := numbers_optional hz
  obtain ⟨hedited', hsize', hprogress'⟩ := numbers_optional hfin
  have hreactions : m.rereadReactions = m.reactions := by
    rw [rereadReactions_eq hs hne]
    cases hl : m.reactions with
    | none => rfl
    | some list =>
      refine congrArg some (map_eq_self fun r hr => ?_)
      rw [Reaction.norm, numbers_reactions hz hl r hr]
  have hattachments : m.attachments.map (List.map Attachment.norm) = m.attachments := by
    cases hl : m.attachments with
    | none => rfl
    | some list =>
      refine congrArg some (map_eq_self fun a ha => ?_)
      rw [Attachment.norm, numbers_attachments hz hl a ha]
  have hopt : ∀ o : Option F64, (∀ x, o = some x → x.isFinite = true) → (∀ x, o = some x → x.norm = x) →
      (o.filter F64.isFinite).map F64.norm = o := by
    intro o hf hn
    rw [filter_isFinite hf]
    cases o with
    | none => rfl
    | some x => exact congrArg some (hn x rfl)
  rw [norm, htime, hindex, hreactions, hattachments, hopt _ hedited' hedited, hopt _ hsize' hsize,
    hopt _ hprogress' hprogress]

end ConversationMessage

namespace ConversationPage

variable {p : ConversationPage}

theorem numbers_messages (h : ∀ x ∈ p.numbers, P x) :
    ∀ m ∈ p.messages, ∀ x ∈ m.numbers, P x := by
  intro m hm x hx
  refine h x ?_
  simp only [numbers, List.mem_append, List.mem_flatMap]
  exact .inl ⟨m, hm, hx⟩

theorem numbers_bounds (h : ∀ x ∈ p.numbers, P x) :
    P p.pageTimestamps.minTimestamp ∧ P p.pageTimestamps.maxTimestamp :=
  ⟨h _ (by simp [numbers, PageTimestamps.numbers]), h _ (by simp [numbers, PageTimestamps.numbers])⟩

/-- No message of the page has an empty list of reactions, which is stored as none. -/
def NoEmptyReactions (p : ConversationPage) : Prop := ∀ m ∈ p.messages, m.reactions ≠ some []

theorem sound (hfin : AllFinite p.numbers) (hs : ∀ m ∈ p.messages, m.Sized) : p.Sound where
  minTimestamp := (numbers_bounds hfin).1
  maxTimestamp := (numbers_bounds hfin).2
  messages := fun m hm => m.sound (numbers_messages hfin m hm) (hs m hm)

theorem norm_eq (hfin : AllFinite p.numbers) (hs : ∀ m ∈ p.messages, m.Sized) (hne : p.NoEmptyReactions) :
    p.norm.eq p = true := by
  obtain ⟨hmin, hmax⟩ := numbers_bounds hfin
  have hmessages : listEq ConversationMessage.eq (p.messages.map ConversationMessage.norm) p.messages = true :=
    listEq_map fun m hm => m.norm_eq (numbers_messages hfin m hm) (hs m hm) (hne m hm)
  simp [eq, norm, hmessages, PageTimestamps.eq, PageTimestamps.norm, F64.norm_eq hmin, F64.norm_eq hmax]

theorem norm_eq_self (hfin : AllFinite p.numbers) (hz : NoNegativeZero p.numbers) (hs : ∀ m ∈ p.messages, m.Sized)
    (hne : p.NoEmptyReactions) : p.norm = p := by
  obtain ⟨hmin, hmax⟩ := numbers_bounds hz
  have hmessages : p.messages.map ConversationMessage.norm = p.messages :=
    map_eq_self fun m hm => m.norm_eq_self (numbers_messages hfin m hm) (numbers_messages hz m hm) (hs m hm) (hne m hm)
  rw [norm, hmessages, PageTimestamps.norm, hmin, hmax]

end ConversationPage

namespace ConversationMetadata

variable {m : ConversationMetadata}

theorem readable (hfin : AllFinite m.numbers) : m.Readable := by
  constructor <;> exact hfin _ (by simp [numbers])

theorem norm_eq (hfin : AllFinite m.numbers) : m.norm.eq m = true := by
  obtain ⟨htotal, holdest, hnewest, hunread, hindex, hupdated⟩ := readable hfin
  simp [eq, norm, F64.norm_eq htotal, F64.norm_eq holdest, F64.norm_eq hnewest, F64.norm_eq hunread, F64.norm_eq hindex,
    F64.norm_eq hupdated]

theorem norm_eq_self (hz : NoNegativeZero m.numbers) : m.norm = m := by
  have h : ∀ x ∈ m.numbers, x.norm = x := hz
  simp only [numbers, List.forall_mem_cons] at h
  obtain ⟨htotal, holdest, hnewest, hunread, hindex, hupdated, -⟩ := h
  rw [norm, htotal, holdest, hnewest, hunread, hindex, hupdated]

end ConversationMetadata

/-- A page of finite numbers and metadata of finite numbers read back from their stored form equal to what was written,
and to the bit where no number is a negative zero. -/
theorem stored_round_trip :
    (∀ p : ConversationPage, AllFinite p.numbers → (∀ m ∈ p.messages, m.Sized) → p.NoEmptyReactions →
      ∃ b q, encodePage p = .ok b ∧ decodePage b = .ok q ∧ q.eq p = true ∧ (NoNegativeZero p.numbers → q = p)) ∧
    ∀ m : ConversationMetadata, AllFinite m.numbers →
      ∃ b q, encodeMetadata m = .ok b ∧ decodeMetadata b = .ok q ∧ q.eq m = true ∧ (NoNegativeZero m.numbers → q = m) := by
  refine ⟨fun p hfin hs hne => ?_, fun m hfin => ?_⟩
  · have hsound := p.sound hfin hs
    have hencode := hsound.encodePage
    refine ⟨_, p.norm, hencode, (decodePage_encodePage hencode _).mpr ⟨hsound.readable, rfl⟩, p.norm_eq hfin hs hne, ?_⟩
    exact fun hz => p.norm_eq_self hfin hz hs hne
  · have hencode := encodeMetadata_eq m
    exact ⟨_, m.norm, hencode, (decodeMetadata_encodeMetadata hencode _).mpr ⟨m.readable hfin, rfl⟩, m.norm_eq hfin,
      m.norm_eq_self⟩

def reactedPage : ConversationPage where
  peerCid := 2
  pageNumber := 0
  messages := [{ ConversationMessage.text "m1" "hello" 2 1 (F64.ofNat 1) (F64.ofNat 0) .read with
    editedAt := some (F64.ofNat 3), reactions := some [⟨"👍", 1, F64.ofNat 2, true⟩] }]
  pageTimestamps := ⟨F64.ofNat 1, F64.ofNat 1⟩

def reactedMetadata : ConversationMetadata where
  peerCid := 2
  ownerCid := none
  peerUsername := none
  totalMessageCount := F64.ofNat 1
  oldestMessageTimestamp := F64.ofNat 1
  newestMessageTimestamp := F64.ofNat 1
  latestPage := 0
  messagesPerPage := 50
  unreadCount := F64.ofNat 0
  lastMessageIndex := F64.ofNat 0
  lastUpdated := F64.ofNat 3

theorem stored_round_trip_reacted :
    (∃ b q, encodePage reactedPage = .ok b ∧ decodePage b = .ok q ∧ q.eq reactedPage = true ∧
      (NoNegativeZero reactedPage.numbers → q = reactedPage)) ∧
    ∃ b q, encodeMetadata reactedMetadata = .ok b ∧ decodeMetadata b = .ok q ∧ q.eq reactedMetadata = true ∧
      (NoNegativeZero reactedMetadata.numbers → q = reactedMetadata) := by
  refine ⟨stored_round_trip.1 reactedPage ?_ (fun m hm list hl => ?_) fun m hm => ?_,
    stored_round_trip.2 reactedMetadata ?_⟩
  · unfold AllFinite
    decide +kernel
  · rw [List.mem_singleton.mp hm] at hl
    obtain rfl := Option.some.inj hl
    refine ⟨by decide, fun r hr => ?_⟩
    rw [List.mem_singleton.mp hr]
    decide +kernel
  · rw [List.mem_singleton.mp hm]
    decide
  · unfold AllFinite
    decide +kernel

end CitadelAgent.Conversations
