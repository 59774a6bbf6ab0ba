import CitadelAgent.Lib.Machine

/-!
# The connections of a session

`citadel-internal-service/src/kernel/{session_subscribers,session_route,membership}.rs`, with the two callers that change the
set themselves, `attach_session` and `displace_older_pages`, for one session. Requests run beside each other: the set is
changed under its lock, read again later to be announced, and the notices go out one by one after that.

* `Attached` : the set, `Session.step` : the requests, each cut where it lets go of a lock;
* `Session.Inv` : whoever has not heard how it stands has the notice on its way, or a request will still read the set;
* `roles_heard` : so once none is at work, everyone has.
-/

namespace CitadelAgent.Sessions
open Function Machine

abbrev Uuid := Nat

inductive SessionRole
  | primary
  | secondary
  | detached
  deriving DecidableEq

/-- `order` has the primary first; `lastHolder` is who held the session when the last member dropped. -/
structure Attached where
  order : List Uuid
  lastHolder : Option Uuid
  deriving DecidableEq

structure Detached where
  removed : Bool
  promoted : Option Uuid
  deriving DecidableEq

namespace Attached

variable (a : Attached)

def new (first : Uuid) : Attached := ⟨[first], none⟩

def primary : Option Uuid := a.order.head?

/-- Each member with its role: that of the first is told from the others' by its place. -/
def roles : List (Uuid × SessionRole) :=
  a.order.mapIdx fun index member => (member, if index = 0 then .primary else .secondary)

def attach (connection : Uuid) : Attached × Bool :=
  if connection ∈ a.order then (a, false) else (⟨a.order ++ [connection], none⟩, true)

def takeOver (caller : Uuid) : Attached × List Uuid :=
  if caller ∈ a.order then (⟨a.order, none⟩, []) else (⟨[caller], none⟩, a.order)

def leave (connection : Uuid) (remember : Bool) : Attached × Detached :=
  if connection ∈ a.order then
    let order := a.order.erase connection
    (⟨order, if order = [] then (if remember then some connection else none) else a.lastHolder⟩,
      ⟨true, if a.primary = some connection then order.head? else none⟩)
  else (a, ⟨false, none⟩)

def detach (connection : Uuid) : Attached × Detached := a.leave connection true

def release (connection : Uuid) : Attached × Detached := a.leave connection false

variable {a} {u : Uuid} {remember : Bool}

def roleOf (order : List Uuid) (member : Uuid) : SessionRole := if order.head? = some member then .primary else .secondary

theorem role_at {i : Nat} (hnodup : a.order.Nodup) (hi : i < a.order.length) :
    (if i = 0 then SessionRole.primary else .secondary) = roleOf a.order a.order[i] := by
  have hiff : a.order.head? = some a.order[i] ↔ i = 0 := by
    rw [List.head?_eq_getElem?, List.getElem?_eq_getElem (by omega), Option.some.injEq, hnodup.getElem_inj_iff]
    exact eq_comm
  unfold roleOf
  simp only [hiff]

theorem mem_roles (hnodup : a.order.Nodup) {member : Uuid} {role : SessionRole} :
    (member, role) ∈ a.roles ↔ member ∈ a.order ∧ role = roleOf a.order member := by
  unfold roles
  rw [List.mem_mapIdx]
  constructor
  · rintro ⟨i, hi, h⟩
    obtain ⟨rfl, rfl⟩ := Prod.mk.inj h
    exact ⟨List.getElem_mem hi, role_at hnodup hi⟩
  · rintro ⟨hmem, rfl⟩
    obtain ⟨i, hi, rfl⟩ := List.getElem_of_mem hmem
    exact ⟨i, hi, by rw [role_at hnodup hi]⟩

theorem leave_order (a : Attached) (u : Uuid) (remember : Bool) : (a.leave u remember).1.order = a.order.erase u := by
  unfold leave
  split
  · rfl
  · next hmem => exact (List.erase_of_not_mem hmem).symm

theorem takeOver_there (hmem : u ∈ a.order) : (a.takeOver u).1.order = a.order ∧ (a.takeOver u).2 = [] := by
  unfold takeOver
  rw [if_pos hmem]
  exact ⟨rfl, rfl⟩

theorem takeOver_new (hmem : u ∉ a.order) : (a.takeOver u).1.order = [u] ∧ (a.takeOver u).2 = a.order := by
  unfold takeOver
  rw [if_neg hmem]
  exact ⟨rfl, rfl⟩

theorem leave_of_notMem (hmem : u ∉ a.order) : a.leave u remember = (a, ⟨false, none⟩) := by
  unfold leave
  rw [if_neg hmem]

end Attached

/-! ## What is said -/

/-- A `SessionRoleNotification` of this session. -/
abbrev Notice := SessionRole × Nat

/-- `u32::try_from(roles.len()).unwrap_or(u32::MAX)` -/
def counted (members : Nat) : Nat := if members < 2 ^ 32 then members else 2 ^ 32 - 1

/-- What `announce_roles` says, and to whom. -/
def announceRoles (a : Attached) (displaced : List Uuid) : List (Uuid × Notice) :=
  a.roles.map (fun x => (x.1, x.2, counted a.roles.length)) ++ displaced.map fun gone => (gone, .detached, 0)

theorem mem_announceRoles {a : Attached} {displaced : List Uuid} (hnodup : a.order.Nodup) {x : Uuid × Notice} :
    x ∈ announceRoles a displaced ↔
      x.1 ∈ a.order ∧ x.2 = (Attached.roleOf a.order x.1, counted a.order.length) ∨
        x.1 ∈ displaced ∧ x.2 = (.detached, 0) := by
  obtain ⟨member, role, members⟩ := x
  have hlength : a.roles.length = a.order.length := List.length_mapIdx
  unfold announceRoles
  rw [List.mem_append, List.mem_map, List.mem_map, hlength]
  constructor
  · rintro (⟨x, hx, h⟩ | ⟨w, hw, h⟩)
    · obtain ⟨hmem, hrole⟩ := (@Attached.mem_roles a hnodup x.1 x.2).mp hx
      rw [← h]
      exact .inl ⟨hmem, by rw [hrole]⟩
    · rw [← h]
      exact .inr ⟨hw, rfl⟩
  · rintro (⟨hmem, h⟩ | ⟨hw, h⟩)
    · exact .inl ⟨(member, Attached.roleOf a.order member), (Attached.mem_roles hnodup).mpr ⟨hmem, rfl⟩, Prod.ext rfl h.symm⟩
    · exact .inr ⟨member, hw, Prod.ext rfl h.symm⟩

/-- What each connection has heard last. -/
abbrev Heard := Uuid → Option Notice

/-- `deliver`, to one connection: one that is not among the clients hears nothing. -/
def deliver (live : Uuid → Bool) (heard : Heard) (x : Uuid × Notice) : Heard :=
  if live x.1 then update heard x.1 (some x.2) else heard

/-! ## The requests -/

/-- What a request that has changed the set has still to do. -/
inductive Telling
  /-- of `attach_session`: to see whether there is anyone to tell -/
  | joined (displaced : List Uuid)
  /-- of `leave_and_announce`, likewise -/
  | left
  /-- of `displace_older_pages`: who is still to be released, and who has been -/
  | retiring (older gone : List Uuid)
  /-- `announce_roles`, to read the roles -/
  | announce (displaced : List Uuid)
  /-- `announce_roles`, which read them at `stamp`, with what is still to be delivered -/
  | saying (stamp : Nat) (notices : List (Uuid × Notice))

namespace Telling

/-- Whom it is to tell that they are detached. -/
def gone : Telling → List Uuid
  | joined gone | retiring _ gone | announce gone => gone
  | left | saying _ _ => []

/-- Whether it comes to read the roles, the set being what it is. -/
def reads (order : List Uuid) : Telling → Bool
  | joined gone => decide (1 < order.length) || !gone.isEmpty
  | left => order.head?.isSome
  | retiring _ _ | announce _ => true
  | saying _ _ => false

/-- What it has still to deliver. -/
def notices : Telling → List (Uuid × Notice)
  | saying _ notices => notices
  | _ => []

def stamp : Telling → Nat
  | saying stamp _ => stamp
  | _ => 0

end Telling

inductive Act
  /-- a connection comes, or is lost: `tx_to_localhost_clients` -/
  | accept (u : Uuid)
  | lose (u : Uuid)
  /-- `attach_session` of a proven caller, by what `live_owner` answered: whether nobody live holds the session -/
  | attachSession (u : Uuid) (orphaned : Bool)
  | takeOver (u : Uuid)
  | detach (u : Uuid)
  | release (u : Uuid)
  /-- `displace_older_pages` has read the members that have not declared -/
  | retire (older : List Uuid)
  /-- a request goes on -/
  | tell (i : Nat)

/-- The last five are read by no request: when each connection was last told of, or joined; whether it was made to leave; when
it joined, or was; when the set last changed; and the time. -/
structure Session where
  attached : Attached
  live : Uuid → Bool
  telling : List Telling
  heard : Heard
  heardAt : Uuid → Nat
  putOut : Uuid → Bool
  since : Uuid → Nat
  changed : Nat
  clock : Nat

namespace Session

/-- `u` has joined, or was there before: the set is `a`, and the request goes on with `more`. What a connection has heard
before it joins says nothing of how it stands after. -/
def join (s : Session) (u : Uuid) (a : Attached) (displaced : List Uuid) (more : List Telling) : Session :=
  if u ∈ s.attached.order then { s with attached := a, telling := s.telling ++ more } else
    { s with
      attached := a
      telling := s.telling ++ more
      heard := update s.heard u none
      heardAt := update s.heardAt u s.clock
      putOut := fun w => w != u && (s.putOut w || displaced.contains w)
      since := fun w => if w = u ∨ w ∈ displaced then s.clock else s.since w
      changed := s.clock
      clock := s.clock + 1 }

def left (s : Session) (r : Attached × Detached) : Session :=
  if r.2.removed then { s with attached := r.1, telling := s.telling ++ [.left], changed := s.clock, clock := s.clock + 1 } else s

def tell (s : Session) (i : Nat) (t : Telling) : Session :=
  let others := s.telling.eraseIdx i
  match t with
  | .joined _ | .left => { s with telling := others ++ if t.reads s.attached.order then [.announce t.gone] else [] }
  | .retiring [] gone => { s with telling := others ++ [.announce gone] }
  | .retiring (u :: older) gone =>
    { s with
      attached := (s.attached.release u).1
      telling := others ++ [.retiring older (gone ++ [u])]
      putOut := update s.putOut u true
      since := update s.since u s.clock
      changed := s.clock
      clock := s.clock + 1 }
  | .announce gone => { s with telling := others ++ [.saying s.clock (announceRoles s.attached gone)], clock := s.clock + 1 }
  | .saying _ [] => { s with telling := others }
  | .saying stamp (x :: notices) =>
    { s with
      telling := others ++ [.saying stamp notices]
      heard := deliver s.live s.heard x
      heardAt := if s.live x.1 then update s.heardAt x.1 stamp else s.heardAt }

def step (s : Session) : Act → Session
  | .accept u => { s with live := update s.live u true }
  | .lose u => { s with live := update s.live u false }
  | .attachSession u true => s.join u (s.attached.takeOver u).1 (s.attached.takeOver u).2 [.joined (s.attached.takeOver u).2]
  | .attachSession u false => s.join u (s.attached.attach u).1 [] [.joined []]
  | .takeOver u =>
    let displaced := (s.attached.takeOver u).2
    s.join u (s.attached.takeOver u).1 displaced (if displaced.isEmpty then [] else [.announce displaced])
  | .detach u => s.left (s.attached.detach u)
  | .release u => s.left (s.attached.release u)
  | .retire older => if older.isEmpty then s else { s with telling := s.telling ++ [.retiring older []] }
  | .tell i =>
    match s.telling[i]? with
    | none => s
    | some t => s.tell i t

/-- The uuid of a connection is drawn anew; whoever was made to leave joins again only when that has been announced; and no
connection is given a notice of roles that were read before those of its last one, or before it joined. -/
def Meets (s : Session) : Act → Prop
  | .accept u => u ∉ s.attached.order ∧ s.putOut u = false
  | .attachSession u _ | .takeOver u => ∀ t ∈ s.telling, u ∉ t.gone
  | .tell i => ∀ t x, s.telling[i]? = some t → t.notices.head? = some x → s.live x.1 = true → s.heardAt x.1 < t.stamp
  | _ => True

/-- `Connect` makes the set of the connection that signs in. -/
def Opened (s : Session) : Prop :=
  ∃ first live, s = ⟨.new first, live, [], fun _ => none, fun _ => 0, fun _ => false, fun _ => 0, 0, 1⟩

/-! ## What everyone has heard -/

/-- A member has last heard its role and the number of members; one that heard nothing since it joined is alone. -/
def Knows (s : Session) (m : Uuid) : Prop :=
  (s.heard m).getD (.primary, 1) = (Attached.roleOf s.attached.order m, counted s.attached.order.length)

/-- It is still to be told of roles that were read after a time. -/
def Awaits (telling : List Telling) (u : Uuid) (time : Nat) : Prop :=
  ∃ t ∈ telling, time < t.stamp ∧ ∃ x ∈ t.notices, x.1 = u

structure Inv (s : Session) : Prop where
  nodup : s.attached.order.Nodup
  gone : ∀ t ∈ s.telling, ∀ u ∈ t.gone, u ∉ s.attached.order
  notices : ∀ t ∈ s.telling, ∀ x ∈ t.notices, t.stamp < s.clock ∧
    (s.changed < t.stamp → x.1 ∈ s.attached.order →
      x.2 = (Attached.roleOf s.attached.order x.1, counted s.attached.order.length)) ∧
    (s.putOut x.1 = true → s.since x.1 < t.stamp → x.2 = (.detached, 0))
  knows : (∃ t ∈ s.telling, t.reads s.attached.order = true) ∨ ∀ m ∈ s.attached.order, s.live m = true →
    s.Knows m ∧ s.changed ≤ s.heardAt m ∨ Awaits s.telling m s.changed
  putOut : ∀ u, s.putOut u = true → u ∉ s.attached.order ∧ ((∃ t ∈ s.telling, u ∈ t.gone) ∨ Awaits s.telling u (s.since u) ∨
    (s.live u = true → s.heard u = some (.detached, 0) ∧ s.since u ≤ s.heardAt u))
  since : s.attached.order.Pairwise (s.since · < s.since ·)
  clock : s.changed < s.clock ∧ ∀ u, s.since u < s.clock

/-! ## Every step keeps it -/

variable {s : Session} {u : Uuid} {t : Telling} {i : Nat}

theorem Awaits.mono {telling : List Telling} {time : Nat} (h : Awaits s.telling u time)
    (hkept : ∀ t ∈ s.telling, t ∈ telling ∨ t.notices = []) : Awaits telling u time := by
  obtain ⟨t, ht, htime, x, hx, hxu⟩ := h
  exact ⟨t, (hkept t ht).resolve_right (List.ne_nil_of_mem hx), htime, x, hx, hxu⟩

theorem mem_others (ht : s.telling[i]? = some t) {t' : Telling} (ht' : t' ∈ s.telling) :
    t' = t ∨ t' ∈ s.telling.eraseIdx i := by
  obtain ⟨j, hj⟩ := List.mem_iff_getElem?.mp ht'
  by_cases hji : j = i
  · rw [hji, ht] at hj
    exact .inl (Option.some.inj hj).symm
  · exact .inr (List.mem_eraseIdx_iff_getElem?.mpr ⟨j, hji, hj⟩)

/-- The set is as it was, and what was to be done still is. -/
theorem Inv.carry (h : s.Inv) {a : Attached} {live : Uuid → Bool} {telling : List Telling}
    (horder : a.order = s.attached.order)
    (hlive : ∀ m, live m = true → s.live m = true ∨ m ∉ s.attached.order ∧ s.putOut m = false)
    (hnew : ∀ t ∈ telling, t ∈ s.telling ∨ t.notices = [] ∧ ∀ u ∈ t.gone, ∃ t' ∈ s.telling, u ∈ t'.gone)
    (hkept : ∀ t ∈ s.telling, t ∈ telling ∨ t.notices = [] ∧ (∀ u ∈ t.gone, ∃ t' ∈ telling, u ∈ t'.gone) ∧
      (t.reads s.attached.order = true → ∃ t' ∈ telling, t'.reads s.attached.order = true)) :
    Inv { s with attached := a, live, telling } := by
  obtain ⟨order, holder⟩ := a
  obtain rfl : order = s.attached.order := horder
  have hquiet : ∀ t ∈ s.telling, t ∈ telling ∨ t.notices = [] := fun t ht => (hkept t ht).imp_right And.left
  refine ⟨h.nodup, fun t ht u hu => ?_, fun t ht x hx => ?_, ?_, fun u hu => ?_, h.since, h.clock⟩
  · rcases hnew t ht with ht | ⟨-, hsame⟩
    · exact h.gone t ht u hu
    · obtain ⟨t', ht', hu'⟩ := hsame u hu
      exact h.gone t' ht' u hu'
  · exact h.notices t ((hnew t ht).resolve_right fun hnone => List.ne_nil_of_mem hx hnone.1) x hx
  · rcases h.knows with ⟨t, ht, hr⟩ | hknows
    · exact .inl ((hkept t ht).elim (fun ht => ⟨t, ht, hr⟩) fun hgo => hgo.2.2 hr)
    · refine .inr fun m hm hl => ?_
      exact (hknows m hm ((hlive m hl).resolve_right fun hx => hx.1 hm)).imp_right fun hx => hx.mono hquiet
  · obtain ⟨hout, htold⟩ := h.putOut u hu
    refine ⟨hout, ?_⟩
    rcases htold with ⟨t, ht, hg⟩ | hawaits | htold
    · exact .inl ((hkept t ht).elim (fun ht => ⟨t, ht, hg⟩) fun hgo => hgo.2.1 u hg)
    · exact .inr (.inl (hawaits.mono hquiet))
    · refine .inr (.inr fun hl => htold ((hlive u hl).resolve_right fun hx => ?_))
      rw [hx.2] at hu
      exact Bool.false_ne_true hu

theorem Inv.more (h : s.Inv) {a : Attached} {live : Uuid → Bool} (more : List Telling)
    (horder : a.order = s.attached.order)
    (hlive : ∀ m, live m = true → s.live m = true ∨ m ∉ s.attached.order ∧ s.putOut m = false)
    (hmore : ∀ t ∈ more, t.gone = [] ∧ t.notices = []) :
    Inv { s with attached := a, live, telling := s.telling ++ more } := by
  refine h.carry horder hlive (fun t ht => ?_) fun t ht => .inl (List.mem_append_left _ ht)
  refine (List.mem_append.mp ht).imp_right fun ht => ⟨(hmore t ht).2, fun u hu => ?_⟩
  rw [(hmore t ht).1] at hu
  exact absurd hu List.not_mem_nil

/-- A request goes on, or has nothing to do any more. -/
theorem Inv.goOn (h : s.Inv) (ht : s.telling[i]? = some t) (hquiet : t.notices = []) {more : List Telling}
    (hmore : ∀ t' ∈ more, t'.gone = t.gone ∧ t'.notices = []) (hgone : t.gone ≠ [] → more ≠ [])
    (hreads : t.reads s.attached.order = true → ∃ t' ∈ more, t'.reads s.attached.order = true) :
    Inv { s with telling := s.telling.eraseIdx i ++ more } := by
  refine h.carry rfl (fun m hm => .inl hm) (fun t' ht' => ?_) fun t' ht' => ?_
  · refine (List.mem_append.mp ht').imp List.mem_of_mem_eraseIdx fun ht' => ⟨(hmore t' ht').2, fun u hu => ?_⟩
    exact ⟨t, List.mem_of_getElem? ht, (hmore t' ht').1 ▸ hu⟩
  · rcases mem_others ht ht' with rfl | ht'
    · refine .inr ⟨hquiet, fun u hu => ?_, fun hr => ?_⟩
      · obtain ⟨t'', ht''⟩ := List.exists_mem_of_ne_nil _ (hgone (List.ne_nil_of_mem hu))
        exact ⟨t'', List.mem_append_right _ ht'', (hmore t'' ht'').1 ▸ hu⟩
      · obtain ⟨t'', ht'', hr⟩ := hreads hr
        exact ⟨t'', List.mem_append_right _ ht'', hr⟩
    · exact .inl (List.mem_append_left _ ht')

/-- The set changes: what was read of it before is out of date, and the roles are read again. -/
theorem Inv.change (h : s.Inv) {a : Attached} {telling : List Telling} {heard : Heard} {heardAt since : Uuid → Nat}
    {putOut : Uuid → Bool} (hnodup : a.order.Nodup) (hgone : ∀ t ∈ telling, ∀ u ∈ t.gone, u ∉ a.order)
    (hnew : ∀ t ∈ telling, t ∈ s.telling ∨ t.notices = []) (hkept : ∀ t ∈ s.telling, t ∈ telling ∨ t.notices = [])
    (hknows : (∃ t ∈ telling, t.reads a.order = true) ∨ ∀ m ∈ a.order,
      (heard m).getD (.primary, 1) = (Attached.roleOf a.order m, counted a.order.length) ∧ heardAt m = s.clock)
    (hput : ∀ u, putOut u = true → u ∉ a.order ∧ ((∃ t ∈ telling, u ∈ t.gone) ∧ since u = s.clock ∨
      s.putOut u = true ∧ since u = s.since u ∧ ((∃ t ∈ s.telling, u ∈ t.gone) → ∃ t ∈ telling, u ∈ t.gone) ∧
        heard u = s.heard u ∧ heardAt u = s.heardAt u))
    (hsince : a.order.Pairwise (since · < since ·)) (hclock : ∀ u, since u = s.since u ∨ since u = s.clock) :
    Inv ⟨a, s.live, telling, heard, heardAt, putOut, since, s.clock, s.clock + 1⟩ := by
  refine ⟨hnodup, hgone, fun t ht x hx => ?_, ?_, fun u hu => ?_, hsince, Nat.lt_succ_self _, fun u => ?_⟩
  · obtain ⟨hstamp, -, hsaid⟩ := h.notices t ((hnew t ht).resolve_right (List.ne_nil_of_mem hx)) x hx
    refine ⟨Nat.lt_succ_of_lt hstamp, fun hlater => absurd hlater hstamp.asymm, fun hu hlater => ?_⟩
    rcases (hput x.1 hu).2 with ⟨-, hnow⟩ | ⟨hu, hsame, -⟩
    · exact absurd (hnow ▸ hlater) hstamp.asymm
    · exact hsaid hu (hsame ▸ hlater)
  · exact hknows.imp_right fun hall m hm _ => .inl ⟨(hall m hm).1, (hall m hm).2.ge⟩
  · obtain ⟨hout, ⟨hg, -⟩ | ⟨hu, hsame, hg, hheard, hat⟩⟩ := hput u hu
    · exact ⟨hout, .inl hg⟩
    · refine ⟨hout, ?_⟩
      simp only [hsame, hheard, hat]
      rcases (h.putOut u hu).2 with ht | hawaits | htold
      · exact .inl (hg ht)
      · exact .inr (.inl (hawaits.mono hkept))
      · exact .inr (.inr htold)
  · rcases hclock u with hsame | hnow
    · exact hsame.trans_lt (Nat.lt_succ_of_lt (h.clock.2 u))
    · exact hnow.trans_lt (Nat.lt_succ_self _)

/-- A connection that is new to the set goes to its end, or is alone in it. -/
theorem Inv.enter (h : s.Inv) (hu : u ∉ s.attached.order) (hfree : ∀ t ∈ s.telling, u ∉ t.gone) {a : Attached}
    {displaced : List Uuid} {more : List Telling}
    (hmore : ∀ t ∈ more, t.gone = displaced ∧ t.notices = [])
    (hnew : a.order = s.attached.order ++ [u] ∧ displaced = [] ∨ a.order = [u] ∧ displaced = s.attached.order)
    (hreads : s.attached.order ≠ [] → ∃ t ∈ more, t.reads a.order = true) : (s.join u a displaced more).Inv := by
  have hsub : ∀ m ∈ a.order, m = u ∨ m ∈ s.attached.order := by
    rcases hnew with ⟨horder, -⟩ | ⟨horder, -⟩ <;> rw [horder] <;> simp +contextual [or_comm]
  have hdisplaced : ∀ w ∈ displaced, w ∉ a.order ∧ w ∈ s.attached.order := by
    intro w hw
    rcases hnew with ⟨-, rfl⟩ | ⟨horder, rfl⟩
    · exact absurd hw List.not_mem_nil
    · refine ⟨fun hwa => ?_, hw⟩
      rw [horder, List.mem_singleton] at hwa
      exact hu (hwa ▸ hw)
  unfold join
  rw [if_neg hu]
  refine h.change ?_ (fun t ht w hw hwa => ?_) (fun t ht => (List.mem_append.mp ht).imp_right fun ht => (hmore t ht).2)
    (fun t ht => .inl (List.mem_append_left _ ht)) ?_ (fun w hw => ?_) ?_ fun w => ?_
  · rcases hnew with ⟨horder, -⟩ | ⟨horder, -⟩ <;> rw [horder]
    · refine List.nodup_append.mpr ⟨h.nodup, List.nodup_singleton u, fun x hx y hy hxy => hu ?_⟩
      rwa [← List.mem_singleton.mp hy, ← hxy]
    · exact List.nodup_singleton u
  · rcases List.mem_append.mp ht with ht | ht
    · exact (hsub w hwa).elim (fun hwu => hfree t ht (hwu ▸ hw)) (h.gone t ht w hw)
    · exact (hdisplaced w ((hmore t ht).1 ▸ hw)).1 hwa
  · by_cases hnone : s.attached.order = []
    · -- the first to come: nobody is told, and it need not be
      have horder : a.order = [u] := by
        rcases hnew with ⟨horder, -⟩ | ⟨horder, -⟩
        · rw [horder, hnone, List.nil_append]
        · exact horder
      refine .inr fun m hm => ?_
      rw [horder, List.mem_singleton] at hm
      rw [hm, horder]
      simp [Attached.roleOf, counted]
    · obtain ⟨t, ht, hr⟩ := hreads hnone
      exact .inl ⟨t, List.mem_append_right _ ht, hr⟩
  · obtain ⟨hwu, hw⟩ : w ≠ u ∧ (s.putOut w = true ∨ w ∈ displaced) := by simpa using hw
    by_cases hdis : w ∈ displaced
    · obtain ⟨hwa, hmem⟩ := hdisplaced w hdis
      obtain ⟨t, ht, -⟩ := hreads (List.ne_nil_of_mem hmem)
      exact ⟨hwa, .inl ⟨⟨t, List.mem_append_right _ ht, (hmore t ht).1 ▸ hdis⟩, if_pos (.inr hdis)⟩⟩
    · have hw := hw.resolve_right hdis
      refine ⟨fun hwa => (hsub w hwa).elim hwu (h.putOut w hw).1, .inr ⟨hw, if_neg ?_, fun hg => ?_, update_of_ne hwu _ _,
        update_of_ne hwu _ _⟩⟩
      · exact fun hor => hor.elim hwu hdis
      · obtain ⟨t, ht, hg⟩ := hg
        exact ⟨t, List.mem_append_left _ ht, hg⟩
  · rcases hnew with ⟨horder, rfl⟩ | ⟨horder, -⟩ <;> rw [horder]
    · have hold : ∀ m ∈ s.attached.order, (if m = u ∨ m ∈ [] then s.clock else s.since m) = s.since m := by
        intro m hm
        refine if_neg fun hor => hor.elim (fun hmu => hu (hmu ▸ hm)) List.not_mem_nil
      refine List.pairwise_append.mpr ⟨h.since.imp_of_mem fun hx hy hxy => ?_, List.pairwise_singleton _ u, ?_⟩
      · rwa [hold _ hx, hold _ hy]
      · intro x hx y hy
        rw [List.mem_singleton.mp hy, hold x hx, if_pos (.inl rfl)]
        exact h.clock.2 x
    · exact List.pairwise_singleton _ u
  · by_cases hw : w = u ∨ w ∈ displaced
    · exact .inr (if_pos hw)
    · exact .inl (if_neg hw)

theorem Inv.left (h : s.Inv) (u : Uuid) (remember : Bool) : (s.left (s.attached.leave u remember)).Inv := by
  unfold Session.left
  split
  · have horder := s.attached.leave_order u remember
    have hsub : ∀ m ∈ (s.attached.leave u remember).1.order, m ∈ s.attached.order := fun m hm =>
      List.mem_of_mem_erase (horder ▸ hm)
    refine h.change (horder ▸ h.nodup.erase u) (fun t ht w hw hwa => ?_)
      (fun t ht => (List.mem_append.mp ht).imp_right fun ht => congrArg Telling.notices (List.mem_singleton.mp ht))
      (fun t ht => .inl (List.mem_append_left _ ht)) ?_ (fun w hw => ?_) (horder ▸ h.since.sublist List.erase_sublist)
      fun w => .inl rfl
    · rcases List.mem_append.mp ht with ht | ht
      · exact h.gone t ht w hw (hsub w hwa)
      · rw [List.mem_singleton.mp ht] at hw
        exact absurd hw List.not_mem_nil
    · cases hleft : (s.attached.leave u remember).1.order with
      | nil => exact .inr fun m hm => absurd hm List.not_mem_nil
      | cons first rest => exact .inl ⟨.left, List.mem_append_right _ (List.mem_singleton_self _), rfl⟩
    · refine ⟨fun hwa => (h.putOut w hw).1 (hsub w hwa), .inr ⟨hw, rfl, fun hg => ?_, rfl, rfl⟩⟩
      obtain ⟨t, ht, hg⟩ := hg
      exact ⟨t, List.mem_append_left _ ht, hg⟩
  · exact h

/-- `displace_older_pages` releases one more. -/
theorem Inv.retired (h : s.Inv) {older gone : List Uuid} (ht : s.telling[i]? = some (.retiring (u :: older) gone)) :
    (s.tell i (.retiring (u :: older) gone)).Inv := by
  have horder := s.attached.leave_order u false
  have hnot : u ∉ (s.attached.release u).1.order := fun hmem => h.nodup.not_mem_erase (horder ▸ hmem)
  have hsub : ∀ m ∈ (s.attached.release u).1.order, m ∈ s.attached.order := fun m hm => List.mem_of_mem_erase (horder ▸ hm)
  have hlast : .retiring older (gone ++ [u]) ∈ s.telling.eraseIdx i ++ [.retiring older (gone ++ [u])] :=
    List.mem_append_right _ (List.mem_singleton_self _)
  refine h.change (horder ▸ h.nodup.erase u) (fun t ht' w hw hwa => ?_)
    (fun t ht' => (List.mem_append.mp ht').imp List.mem_of_mem_eraseIdx fun ht' =>
      congrArg Telling.notices (List.mem_singleton.mp ht')) (fun t ht' => ?_) (.inl ⟨_, hlast, rfl⟩) (fun w hw => ?_) ?_ fun w => ?_
  · rcases List.mem_append.mp ht' with ht' | ht'
    · exact h.gone t (List.mem_of_mem_eraseIdx ht') w hw (hsub w hwa)
    · rw [List.mem_singleton.mp ht'] at hw
      rcases List.mem_append.mp hw with hw | hw
      · exact h.gone _ (List.mem_of_getElem? ht) w hw (hsub w hwa)
      · exact hnot (List.mem_singleton.mp hw ▸ hwa)
  · exact (mem_others ht ht').symm.imp (List.mem_append_left _) (congrArg Telling.notices)
  · by_cases hwu : w = u
    · subst hwu
      exact ⟨hnot, .inl ⟨⟨_, hlast, List.mem_append_right _ (List.mem_singleton_self _)⟩, update_self _ _ _⟩⟩
    · rw [update_of_ne hwu] at hw
      refine ⟨fun hwa => (h.putOut w hw).1 (hsub w hwa), .inr ⟨hw, update_of_ne hwu _ _, fun hg => ?_, rfl, rfl⟩⟩
      obtain ⟨t, ht', hg⟩ := hg
      rcases mem_others ht ht' with rfl | ht'
      · exact ⟨_, hlast, List.mem_append_left _ hg⟩
      · exact ⟨t, List.mem_append_left _ ht', hg⟩
  · refine (horder ▸ h.since.sublist List.erase_sublist : (s.attached.release u).1.order.Pairwise _).imp_of_mem
      fun hx hy hxy => ?_
    rwa [update_of_ne (ne_of_mem_of_not_mem hx hnot), update_of_ne (ne_of_mem_of_not_mem hy hnot)]
  · by_cases hwu : w = u
    · exact .inr (hwu ▸ update_self _ _ _)
    · exact .inl (update_of_ne hwu _ _)

/-- `announce_roles` reads the roles: each member, and each that was made to leave, has a notice on its way. -/
theorem Inv.read (h : s.Inv) {gone : List Uuid} (ht : s.telling[i]? = some (.announce gone)) :
    (s.tell i (.announce gone)).Inv := by
  have hlast : .saying s.clock (announceRoles s.attached gone) ∈
      s.telling.eraseIdx i ++ [.saying s.clock (announceRoles s.attached gone)] :=
    List.mem_append_right _ (List.mem_singleton_self _)
  have hmem : .announce gone ∈ s.telling := List.mem_of_getElem? ht
  refine ⟨h.nodup, fun t' ht' u hu => ?_, fun t' ht' x hx => ?_, .inr fun m hm _ => .inr ?_, fun u hu => ?_, h.since,
    Nat.lt_succ_of_lt h.clock.1, fun u => Nat.lt_succ_of_lt (h.clock.2 u)⟩
  · rcases List.mem_append.mp ht' with ht' | ht'
    · exact h.gone t' (List.mem_of_mem_eraseIdx ht') u hu
    · rw [List.mem_singleton.mp ht'] at hu
      exact absurd hu List.not_mem_nil
  · rcases List.mem_append.mp ht' with ht' | ht'
    · exact (h.notices t' (List.mem_of_mem_eraseIdx ht') x hx).imp_left Nat.lt_succ_of_lt
    · obtain rfl := List.mem_singleton.mp ht'
      refine ⟨Nat.lt_succ_self _, ?_⟩
      rcases (mem_announceRoles h.nodup).mp hx with ⟨hx, hrole⟩ | ⟨hx, hrole⟩
      · exact ⟨fun _ _ => hrole, fun hout _ => absurd hx (h.putOut x.1 hout).1⟩
      · exact ⟨fun _ hmember => absurd hmember (h.gone _ hmem x.1 hx), fun _ _ => hrole⟩
  · exact ⟨_, hlast, h.clock.1, (m, Attached.roleOf s.attached.order m, counted s.attached.order.length),
      (mem_announceRoles h.nodup).mpr (.inl ⟨hm, rfl⟩), rfl⟩
  · obtain ⟨hout, htold⟩ := h.putOut u hu
    refine ⟨hout, ?_⟩
    rcases htold with ⟨t', ht', hg⟩ | hawaits | htold
    · rcases mem_others ht ht' with rfl | ht'
      · exact .inr (.inl ⟨_, hlast, h.clock.2 u, (u, .detached, 0),
          (mem_announceRoles h.nodup).mpr (.inr ⟨hg, rfl⟩), rfl⟩)
      · exact .inl ⟨t', List.mem_append_left _ ht', hg⟩
    · refine .inr (.inl (hawaits.mono fun t' ht' => ?_))
      exact (mem_others ht ht').symm.imp (List.mem_append_left _) (congrArg Telling.notices)
    · exact .inr (.inr htold)

/-- A notice is delivered, in its turn. -/
theorem Inv.said (h : s.Inv) {stamp : Nat} {x : Uuid × Notice} {notices : List (Uuid × Notice)}
    (ht : s.telling[i]? = some (.saying stamp (x :: notices))) (hturn : s.live x.1 = true → s.heardAt x.1 < stamp) :
    (s.tell i (.saying stamp (x :: notices))).Inv := by
  have hmem : .saying stamp (x :: notices) ∈ s.telling := List.mem_of_getElem? ht
  have hlast : .saying stamp notices ∈ s.telling.eraseIdx i ++ [.saying stamp notices] :=
    List.mem_append_right _ (List.mem_singleton_self _)
  obtain ⟨-, hmember, hdetached⟩ := h.notices _ hmem x List.mem_cons_self
  -- whoever waits for another notice still does; or this is the one
  have hawaits : ∀ u time, Awaits s.telling u time →
      (u = x.1 ∧ time < stamp) ∨ Awaits (s.telling.eraseIdx i ++ [.saying stamp notices]) u time := by
    rintro u time ⟨t', ht', htime, y, hy, rfl⟩
    rcases mem_others ht ht' with rfl | ht'
    · rcases List.mem_cons.mp hy with rfl | hy
      · exact .inl ⟨rfl, htime⟩
      · exact .inr ⟨_, hlast, htime, y, hy, rfl⟩
    · exact .inr ⟨t', List.mem_append_left _ ht', htime, y, hy, rfl⟩
  have hgets : s.live x.1 = true → deliver s.live s.heard x x.1 = some x.2 ∧
      (if s.live x.1 then update s.heardAt x.1 stamp else s.heardAt) x.1 = stamp := by
    intro hl
    unfold deliver
    rw [if_pos hl, if_pos hl]
    exact ⟨update_self _ _ _, update_self _ _ _⟩
  have hothers : ∀ u, u ≠ x.1 → deliver s.live s.heard x u = s.heard u ∧
      (if s.live x.1 then update s.heardAt x.1 stamp else s.heardAt) u = s.heardAt u := by
    intro u hux
    unfold deliver
    split
    · exact ⟨update_of_ne hux _ _, update_of_ne hux _ _⟩
    · exact ⟨rfl, rfl⟩
  refine ⟨h.nodup, fun t' ht' u hu => ?_, fun t' ht' y hy => ?_, ?_, fun u hu => ?_, h.since, h.clock⟩
  · rcases List.mem_append.mp ht' with ht' | ht'
    · exact h.gone t' (List.mem_of_mem_eraseIdx ht') u hu
    · rw [List.mem_singleton.mp ht'] at hu
      exact absurd hu List.not_mem_nil
  · rcases List.mem_append.mp ht' with ht' | ht'
    · exact h.notices t' (List.mem_of_mem_eraseIdx ht') y hy
    · obtain rfl := List.mem_singleton.mp ht'
      exact h.notices _ hmem y (List.mem_cons_of_mem _ hy)
  · rcases h.knows with ⟨t', ht', hr⟩ | hknows
    · refine .inl ⟨t', List.mem_append_left _ ((mem_others ht ht').resolve_left ?_), hr⟩
      rintro rfl
      exact Bool.false_ne_true hr
    · refine .inr fun m hm hl => ?_
      by_cases hmx : m = x.1
      · subst hmx
        obtain ⟨hheard, hat⟩ := hgets hl
        by_cases hlater : s.changed < stamp
        · exact .inl ⟨(congrArg (fun y : Option Notice => y.getD (.primary, 1)) hheard).trans (hmember hlater hm), hlater.le.trans_eq hat.symm⟩
        · rcases hknows x.1 hm hl with ⟨-, hchanged⟩ | hwaits
          · exact absurd (hchanged.trans_lt (hturn hl)) hlater
          · exact .inr ((hawaits x.1 _ hwaits).resolve_left fun hx => hlater hx.2)
      · obtain ⟨hheard, hat⟩ := hothers m hmx
        rcases hknows m hm hl with ⟨hrole, hchanged⟩ | hwaits
        · exact .inl ⟨(congrArg (fun y : Option Notice => y.getD (.primary, 1)) hheard).trans hrole, hchanged.trans_eq hat.symm⟩
        · exact .inr ((hawaits m _ hwaits).resolve_left fun hx => hmx hx.1)
  · obtain ⟨hout, htold⟩ := h.putOut u hu
    refine ⟨hout, ?_⟩
    have hnow : u = x.1 → s.since u < stamp →
        s.live u = true → deliver s.live s.heard x u = some (.detached, 0) ∧
          s.since u ≤ (if s.live x.1 then update s.heardAt x.1 stamp else s.heardAt) u := by
      rintro rfl hsince hl
      obtain ⟨hheard, hat⟩ := hgets hl
      exact ⟨hheard.trans (congrArg some (hdetached hu hsince)), hsince.le.trans_eq hat.symm⟩
    rcases htold with ⟨t', ht', hg⟩ | hwaits | htold
    · refine .inl ⟨t', List.mem_append_left _ ((mem_others ht ht').resolve_left ?_), hg⟩
      rintro rfl
      exact List.not_mem_nil hg
    · rcases hawaits u _ hwaits with ⟨hux, hsince⟩ | hwaits
      · exact .inr (.inr (hnow hux hsince))
      · exact .inr (.inl hwaits)
    · refine .inr (.inr fun hl => ?_)
      obtain ⟨hheard, hsince⟩ := htold hl
      by_cases hux : u = x.1
      · exact hnow hux (hsince.trans_lt (hux ▸ hturn (hux ▸ hl))) hl
      · exact ⟨(hothers u hux).1.trans hheard, hsince.trans_eq (hothers u hux).2.symm⟩

theorem Inv.join (h : s.Inv) (hfree : ∀ t ∈ s.telling, u ∉ t.gone) {a : Attached} {displaced : List Uuid}
    {more : List Telling} (hmore : ∀ t ∈ more, t.gone = displaced ∧ t.notices = [])
    (hthere : u ∈ s.attached.order → a.order = s.attached.order ∧ displaced = [])
    (hnew : u ∉ s.attached.order →
      a.order = s.attached.order ++ [u] ∧ displaced = [] ∨ a.order = [u] ∧ displaced = s.attached.order)
    (hreads : u ∉ s.attached.order → s.attached.order ≠ [] → ∃ t ∈ more, t.reads a.order = true) :
    (s.join u a displaced more).Inv := by
  by_cases hu : u ∈ s.attached.order
  · obtain ⟨horder, hnobody⟩ := hthere hu
    unfold Session.join
    rw [if_pos hu]
    exact h.more more horder (fun m hm => .inl hm) fun t ht => ⟨(hmore t ht).1.trans hnobody, (hmore t ht).2⟩
  · exact h.enter hu hfree hmore (hnew hu) (hreads hu)

theorem Inv.tell (h : s.Inv) (ht : s.telling[i]? = some t) (hmeets : s.Meets (.tell i)) : (s.tell i t).Inv := by
  -- one of the requests that look first, or announce at once
  have hgoOn : ∀ goes : Bool, t.notices = [] → (t.gone ≠ [] → goes = true) → (t.reads s.attached.order = true → goes = true) →
      Inv { s with telling := s.telling.eraseIdx i ++ if goes then [.announce t.gone] else [] } := by
    intro goes hquiet hgone hreads
    refine h.goOn ht hquiet (fun t' ht' => ?_) (fun hg => ?_) fun hr => ?_
    · split at ht'
      · exact List.mem_singleton.mp ht' ▸ ⟨rfl, rfl⟩
      · exact absurd ht' List.not_mem_nil
    · rw [if_pos (hgone hg)]
      exact List.cons_ne_nil _ _
    · rw [if_pos (hreads hr)]
      exact ⟨_, List.mem_singleton_self _, rfl⟩
  cases t with
  | joined gone =>
    refine hgoOn _ rfl (fun hgone => ?_) id
    unfold Telling.reads
    rw [Bool.or_eq_true, Bool.not_eq_true', List.isEmpty_eq_false_iff]
    exact .inr hgone
  | left => exact hgoOn _ rfl (fun hgone => absurd rfl hgone) id
  | retiring older gone =>
    cases older with
    | nil => exact hgoOn true rfl (fun _ => rfl) fun _ => rfl
    | cons u older => exact h.retired ht
  | announce gone => exact h.read ht
  | saying stamp notices =>
    cases notices with
    | nil =>
      have hdone := hgoOn false rfl (fun hgone => absurd rfl hgone) id
      rwa [if_neg Bool.false_ne_true, List.append_nil] at hdone
    | cons x notices => exact h.said ht (hmeets _ x ht rfl)

theorem Inv.step (h : s.Inv) (act : Act) (hmeets : s.Meets act) : (s.step act).Inv := by
  cases act with
  | accept u =>
    refine h.carry rfl (fun m hm => ?_) (fun t ht => .inl ht) fun t ht => .inl ht
    by_cases hmu : m = u
    · exact .inr (hmu ▸ hmeets)
    · exact .inl ((update_of_ne hmu _ _).symm.trans hm)
  | lose u =>
    refine h.carry rfl (fun m hm => ?_) (fun t ht => .inl ht) fun t ht => .inl ht
    by_cases hmu : m = u
    · rw [hmu, update_self] at hm
      exact absurd hm Bool.false_ne_true
    · exact .inl ((update_of_ne hmu _ _).symm.trans hm)
  | attachSession u orphaned =>
    cases orphaned with
    | true =>
      refine h.join hmeets (by simp [Telling.gone, Telling.notices]) Attached.takeOver_there (fun hu => .inr (Attached.takeOver_new hu)) ?_
      intro hu hne
      rw [(Attached.takeOver_new hu).2]
      exact ⟨_, List.mem_singleton_self _, by simp [Telling.reads, hne]⟩
    | false =>
      refine h.join hmeets (by simp [Telling.gone, Telling.notices]) (fun hu => ⟨?_, rfl⟩) (fun hu => .inl ⟨?_, rfl⟩) fun hu hne => ?_
      · rw [Attached.attach, if_pos hu]
      · rw [Attached.attach, if_neg hu]
      · refine ⟨_, List.mem_singleton_self _, ?_⟩
        have hpos := List.length_pos_of_ne_nil hne
        rw [Attached.attach, if_neg hu]
        simp [Telling.reads]
        omega
  | takeOver u =>
    refine h.join hmeets (fun t ht => ?_) Attached.takeOver_there (fun hu => .inr (Attached.takeOver_new hu)) ?_
    · split at ht
      · exact absurd ht List.not_mem_nil
      · exact List.mem_singleton.mp ht ▸ ⟨rfl, rfl⟩
    · intro hu hne
      rw [(Attached.takeOver_new hu).2, if_neg (by simpa using hne)]
      exact ⟨_, List.mem_singleton_self _, rfl⟩
  | detach u => exact h.left u true
  | release u => exact h.left u false
  | retire older =>
    simp only [Session.step]
    split
    · exact h
    · exact h.more [.retiring older []] rfl (fun m hm => .inl hm) (by simp [Telling.gone, Telling.notices])
  | tell i =>
    simp only [Session.step]
    split
    · exact h
    · next t ht => exact h.tell ht hmeets

theorem inv_opened (h : s.Opened) : s.Inv := by
  obtain ⟨first, live, rfl⟩ := h
  refine ⟨List.nodup_singleton _, fun _ ht => absurd ht List.not_mem_nil, fun _ ht => absurd ht List.not_mem_nil,
    .inr fun m hm _ => .inl ⟨?_, Nat.le_refl 0⟩, fun _ hu => Bool.noConfusion hu, List.pairwise_singleton _ _, Nat.one_pos,
    fun _ => Nat.one_pos⟩
  rw [List.mem_singleton.mp hm]
  simp [Knows, Attached.new, Attached.roleOf, counted]

/-- Once every request has said what it had to say, whatever the order they ran in: each connected member of the session has
last heard its own role and how many they are, or is alone and has heard nothing; each connection that was made to leave has
last heard that it is detached. The members are always in the order in which they joined, the primary first. -/
theorem roles_heard (run : Reaches step Meets Opened s) :
    s.attached.order.Pairwise (s.since · < s.since ·) ∧
      (s.telling = [] → (∀ m ∈ s.attached.order, s.live m = true → s.Knows m) ∧
        ∀ u, s.putOut u = true → s.live u = true → s.heard u = some (.detached, 0)) := by
  have hinv := run.invariant (fun _ => inv_opened) fun _ act h => h.step act
  refine ⟨hinv.since, fun hnone => ?_⟩
  have hnobody : ∀ u time, ¬ Awaits s.telling u time := by
    rintro u time ⟨t, ht, -⟩
    rw [hnone] at ht
    exact List.not_mem_nil ht
  refine ⟨fun m hm hl => ?_, fun u hu hl => ?_⟩
  · rcases hinv.knows with ⟨t, ht, -⟩ | hknows
    · rw [hnone] at ht
      exact absurd ht List.not_mem_nil
    · exact ((hknows m hm hl).resolve_right (hnobody m _)).1
  · rcases (hinv.putOut u hu).2 with ⟨t, ht, -⟩ | hwaits | htold
    · rw [hnone] at ht
      exact absurd ht List.not_mem_nil
    · exact absurd hwaits (hnobody u _)
    · exact (htold hl).1

/-- A second window joins the first one's session. -/
theorem roles_heard_second :
    let s := ([.attachSession 2 false, .tell 0, .tell 0, .tell 0, .tell 0, .tell 0] : List Act).foldl step
      ⟨.new 1, fun _ => true, [], fun _ => none, fun _ => 0, fun _ => false, fun _ => 0, 0, 1⟩
    s.Knows 1 ∧ s.Knows 2 ∧ s.heard 1 = some (.primary, 2) ∧ s.heard 2 = some (.secondary, 2) := by
  intro s
  have opened : Reaches step Meets Opened _ := .start ⟨1, fun _ => true, rfl⟩
  have joined := opened.step (.attachSession 2 false) fun _ ht => absurd ht List.not_mem_nil
  have looked := joined.step (.tell 0) fun t x ht hx _ => by cases ht; cases hx
  have read := looked.step (.tell 0) fun t x ht hx _ => by cases ht; cases hx
  have first := read.step (.tell 0) fun t x ht hx _ => by cases ht; cases hx; decide
  have second := first.step (.tell 0) fun t x ht hx _ => by cases ht; cases hx; decide
  have run := second.step (.tell 0) fun t x ht hx _ => by cases ht; cases hx
  have hknows := ((roles_heard run).2 rfl).1
  exact ⟨hknows 1 (by decide) rfl, hknows 2 (by decide) rfl, rfl, rfl⟩

end Session
end CitadelAgent.Sessions
