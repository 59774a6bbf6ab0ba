import CitadelAgent.Conversations.Keys
import CitadelAgent.Updater.Engine

/-!
# Where a release is staged

* `Placed e version path` : `path` lies two levels or more under the updater's directory, in that of `version`;
* `toText_inj` : two versions a tag can name do not share a directory;
* `Spared e w path` : nothing but the engine's own check can change `path`; `env_frame`, `interleaved_frame`.
-/

namespace CitadelAgent.Updater
open Prog (Event Runs Only)
open Conversations (digits Stops digits_append_inj digits_injective)

variable {e : Engine} {version version' : Version} {path : PathBuf} {w t : World} {events : List IoCall}

/-! ## Names -/

theorem osStr_injective : Function.Injective osStr := by
  intro a b h
  exact String.toByteArray_inj.mp (ByteArray.ext (Array.toList_inj.mp h))

def Version.Plain (v : Version) : Prop := v.pre = "" ∧ v.build = ""

theorem toText_inj {v v' : Version} (hv : v.Plain) (hv' : v'.Plain) (h : v.toText = v'.toText) : v = v' := by
  obtain ⟨major, minor, patch, pre, build⟩ := v
  obtain ⟨major', minor', patch', pre', build'⟩ := v'
  obtain ⟨rfl, rfl⟩ : pre = "" ∧ build = "" := hv
  obtain ⟨rfl, rfl⟩ : pre' = "" ∧ build' = "" := hv'
  have htext : ∀ a b c : Nat, (Version.toText ⟨a, b, c, "", ""⟩).toList =
      digits a ++ '.' :: (digits b ++ '.' :: (digits c ++ [])) := by
    intro a b c
    simp [Version.toText, digits, toString]
  have hdot : ∀ rest : List Char, Stops ('.' :: rest) := fun rest c hc => by
    obtain rfl : '.' = c := by simpa using hc
    rfl
  have hlist := congrArg String.toList h
  rw [htext, htext] at hlist
  obtain ⟨rfl, h₁⟩ := digits_append_inj (hdot _) (hdot _) hlist
  obtain ⟨rfl, h₂⟩ := digits_append_inj (hdot _) (hdot _) (List.cons.inj h₁).2
  rw [digits_injective (List.append_cancel_right (List.cons.inj h₂).2)]

theorem versionOfTag_plain {tag : String} (h : versionOfTag tag = some version) : version.Plain := by
  unfold versionOfTag at h
  obtain ⟨text, -, h⟩ := Option.bind_eq_some_iff.mp h
  obtain ⟨v, -, h⟩ := Option.bind_eq_some_iff.mp h
  split at h
  · rename_i hplain
    obtain rfl := Option.some.inj h
    simpa [Version.Plain] using hplain
  · simp at h

/-! ## Places -/

def Placed (e : Engine) (version : Version) (path : PathBuf) : Prop :=
  ∃ mid name, path.components = e.root.components ++ .normal (osStr version.toText) :: (mid ++ [.normal name])

theorem placed_download (e : Engine) (version : Version) (name : OsStr) : Placed e version ((e.versionDir version).join name) :=
  ⟨[], name, by simp [Engine.versionDir, PathBuf.join]⟩

theorem placed_staged (e : Engine) (version : Version) (name dir binary : OsStr) :
    Placed e version ((((e.versionDir version).join name).withFileName dir).join binary) :=
  ⟨[.normal dir], binary, by simp [Engine.versionDir, PathBuf.join, PathBuf.withFileName]⟩

theorem Placed.text_eq (h : Placed e version path) (h' : Placed e version' path) : version.toText = version'.toText := by
  obtain ⟨mid, name, h⟩ := h
  obtain ⟨mid', name', h'⟩ := h'
  have hcons := List.append_cancel_left (h.symm.trans h')
  exact osStr_injective (Component.normal.inj (List.cons.inj hcons).1)

theorem Placed.ne_marker (h : Placed e version path) (text : String) : path ≠ failedMarker e.root text := by
  rintro rfl
  obtain ⟨mid, name, h⟩ := h
  have := congrArg List.length h
  simp only [failedMarker, PathBuf.join, List.length_append, List.length_cons, List.length_nil] at this
  omega

theorem Placed.launchLog (h : Placed e version path) : Placed e version (launchLog path) := by
  obtain ⟨mid, name, h⟩ := h
  unfold Updater.launchLog
  split
  · rename_i name' hname
    refine ⟨mid, fileStem name' ++ osStr ".check-launch.stderr", ?_⟩
    have hlast : path.components.dropLast = e.root.components ++ .normal (osStr version.toText) :: mid := by
      rw [h, show e.root.components ++ Component.normal (osStr version.toText) :: (mid ++ [.normal name]) =
        (e.root.components ++ Component.normal (osStr version.toText) :: mid) ++ [.normal name] by simp, List.dropLast_concat]
    show path.components.dropLast ++ [_] = _
    rw [hlast]
    simp
  · exact ⟨mid, name, h⟩

theorem fileStem_append {x y : OsStr} (hx : x ≠ []) (hy : (0x2E : UInt8) ∉ y) : fileStem (x ++ 0x2E :: y) = x := by
  have hdrop : ((x ++ (0x2E : UInt8) :: y).reverse.dropWhile (· ≠ 0x2E)) = 0x2E :: x.reverse := by
    rw [List.reverse_append, List.reverse_cons, List.append_assoc, List.dropWhile_append_of_pos]
    · rfl
    · intro b hb
      exact decide_eq_true fun heq => hy (heq ▸ List.mem_reverse.mp hb)
  rw [fileStem, hdrop, List.tail_cons]
  split
  · rename_i hnil
    exact absurd (List.reverse_eq_nil_iff.mp hnil) hx
  · rw [List.reverse_reverse]

theorem fileStem_ne (name : OsStr) : fileStem name ++ osStr ".check-launch.stderr" ≠ name := by
  intro h
  have hsuffix : osStr ".check-launch.stderr" = osStr ".check-launch" ++ 0x2E :: osStr "stderr" := by decide
  have hlaunch : osStr ".check-launch" ≠ [] := by decide
  have hstem := fileStem_append (x := fileStem name ++ osStr ".check-launch") (y := osStr "stderr")
    (fun hnil => hlaunch (List.append_eq_nil_iff.mp hnil).2) (by decide)
  rw [List.append_assoc, ← hsuffix, h] at hstem
  exact hlaunch (List.append_right_eq_self.mp hstem.symm)

theorem Placed.ne_launchLog (h : Placed e version path) : path ≠ Updater.launchLog path := by
  obtain ⟨mid, name, h⟩ := h
  have hname : path.fileName = some name := by
    rw [PathBuf.fileName, h, show e.root.components ++ Component.normal (osStr version.toText) :: (mid ++ [.normal name]) =
      (e.root.components ++ Component.normal (osStr version.toText) :: mid) ++ [.normal name] by simp, List.getLast?_concat]
  intro heq
  rw [Updater.launchLog, hname] at heq
  have := congrArg PathBuf.fileName heq
  rw [hname] at this
  simp only [PathBuf.withFileName, PathBuf.join, PathBuf.fileName, List.getLast?_concat, Option.some.injEq] at this
  exact fileStem_ne name this.symm

/-! ## What a call leaves alone -/

def Engine.Leaves (e : Engine) : IoOp → PathBuf → Prop
  | .download _ dest _, p => p ≠ dest
  | .downloadPath version _, p => ∀ name, name ≠ osStr version.toText → ¬ Within (e.root.join name) p
  | .stage .appImage download, p => p ≠ download
  | .stage .tarball download, p => ¬ Within (download.withFileName (osStr "staged")) p
  | .discard version, p => ¬ Within (e.versionDir version) p
  | .markFailed version _, p => p ≠ e.marker version
  | .canInstall staged, p => p ≠ launchLog staged
  | _, _ => True

theorem noteFetched_offer (lib : Libraries) (now : Nat) (fetched : Except String Fetched) (s : EngineState) :
    (noteFetched lib now fetched s).2.offer = s.offer := by
  unfold noteFetched
  split
  · rfl
  · rfl
  · dsimp only
    split
    · rfl
    · rfl

def IoOp.KeepsOffer : IoOp → Prop
  | .modify f => ∀ s, (f s).offer = s.offer
  | _ => True

theorem exact_cases {o : IoOp} {answer : o.Answer} (h : e.Exact o w answer t) :
    (∃ files, t = { w with files } ∧ ∀ p, e.Leaves o p → files p = w.files p) ∨
      ∃ state, t = { w with state } ∧ (o.KeepsOffer → state.offer = w.state.offer) := by
  have hkeep (ht : t = w) : (∃ files, t = { w with files } ∧ ∀ p, e.Leaves o p → files p = w.files p) ∨
      ∃ state, t = { w with state } ∧ (o.KeepsOffer → state.offer = w.state.offer) :=
    .inr ⟨w.state, ht, fun _ => rfl⟩
  unfold Engine.Exact at h
  split at h
  case h_1 | h_6 =>
    obtain ⟨-, f, -, rfl⟩ := h
    exact .inl ⟨_, rfl, fun p hp => Function.update_of_ne hp _ _⟩
  case h_2 | h_11 | h_12 =>
    obtain ⟨files, hsame, rfl⟩ := h
    exact .inl ⟨files, rfl, hsame⟩
  case h_3 =>
    obtain ⟨-, files, rfl, hfiles⟩ := h
    exact .inl ⟨files, rfl, fun p hp => (hfiles p).resolve_right fun ⟨_, name, hname, hwithin⟩ => hp name hname hwithin⟩
  case h_8 =>
    obtain ⟨files, rfl, hfiles, -⟩ := h
    exact .inl ⟨files, rfl, hfiles⟩
  case h_9 =>
    obtain ⟨files, rfl, hfiles⟩ := h
    exact .inl ⟨files, rfl, fun p hp => (hfiles p).resolve_right fun hgone => hp hgone.2⟩
  case h_4 | h_10 => exact hkeep h.1
  case h_5 | h_13 | h_14 => exact hkeep h.2
  case h_7 | h_17 => exact hkeep h
  case h_15 => exact .inr ⟨_, h, fun ho => ho w.state⟩
  case h_16 => exact .inr ⟨_, h.2, fun _ => noteFetched_offer _ _ _ _⟩

theorem exact_frame {o : IoOp} {answer : o.Answer} (h : e.Exact o w answer t) (hp : e.Leaves o path) :
    t.files path = w.files path := by
  obtain ⟨files, rfl, hfiles⟩ | ⟨state, rfl, -⟩ := exact_cases h
  · exact hfiles path hp
  · rfl

theorem exact_offer {o : IoOp} {answer : o.Answer} (h : e.Exact o w answer t) (ho : o.KeepsOffer) :
    t.state.offer = w.state.offer := by
  obtain ⟨files, rfl, -⟩ | ⟨state, rfl, hstate⟩ := exact_cases h
  · rfl
  · exact hstate ho

/-! ## What happens beside a check -/

theorem ready_frame {offer : Offer} {answer : Bool} (run : Runs e.Exact (ready offer) w events answer t) :
    t.state.offer = w.state.offer ∧ ∀ p, (∀ s, offer.staged = some s → p ≠ launchLog s) → t.files p = w.files p := by
  unfold Updater.ready at run
  split at run
  · obtain ⟨-, -, rfl⟩ := Prog.runs_ret.mp run
    exact ⟨rfl, fun p _ => rfl⟩
  · rename_i staged hstaged
    obtain ⟨answer, m, rest, rfl, hcan, hrest⟩ := Prog.runs_op_bind.mp run
    have hsame : t = m := by
      match answer with
      | .ok _ => exact (Prog.runs_ret.mp hrest).2.2
      | .error _ => exact (Prog.runs_ret.mp hrest).2.2
    rw [hsame]
    exact ⟨exact_offer hcan trivial, fun p hp => exact_frame hcan (hp staged hstaged)⟩

theorem available_frame {offer : Offer} {update : UpdateAvailable} (run : Runs e.Exact (available e offer) w events update t) :
    t.state.offer = w.state.offer ∧ ∀ p, (∀ s, offer.staged = some s → p ≠ launchLog s) → t.files p = w.files p := by
  obtain ⟨first, second, ready, m, rfl, hready, hend⟩ := Prog.runs_bind.mp run
  obtain ⟨-, -, rfl⟩ := Prog.runs_ret.mp hend
  exact ready_frame hready

/-- Neither a marker nor the log of the offer's launch check. -/
def Spared (e : Engine) (s : EngineState) (path : PathBuf) : Prop :=
  (∀ version, path ≠ e.marker version) ∧ ∀ offer staged, s.offer = some offer → offer.staged = some staged → path ≠ launchLog staged

theorem env_frame (h : Env e w t) : t.state.offer = w.state.offer ∧ ∀ p, Spared e w.state p → t.files p = w.files p := by
  cases h with
  | setAutoInstall automatic run =>
    obtain ⟨answer, m, rest, rfl, hset, hrest⟩ := Prog.runs_op_bind.mp run
    have hm : m = w := hset
    match answer with
    | .error _ =>
      obtain ⟨-, -, rfl⟩ := Prog.runs_ret.mp hrest
      rw [hm]
      exact ⟨rfl, fun p _ => rfl⟩
    | .ok _ =>
      obtain ⟨_, m', rest, rfl, hmodify, hend⟩ := Prog.runs_op_bind.mp hrest
      obtain ⟨-, -, rfl⟩ := Prog.runs_ret.mp hend
      rw [show t = _ from hmodify, hm]
      exact ⟨rfl, fun p _ => rfl⟩
  | loadSettings run =>
    obtain ⟨answer, m, rest, rfl, hget, hrest⟩ := Prog.runs_op_bind.mp run
    have hm : m = w := hget
    obtain ⟨-, hmodify⟩ := Prog.runs_op.mp hrest
    rw [show t = _ from hmodify, hm]
    exact ⟨rfl, fun p _ => rfl⟩
  | status run =>
    obtain ⟨state, m, rest, rfl, ⟨hstate, hm⟩, hrest⟩ := Prog.runs_op_bind.mp run
    obtain rfl : m = w := hm
    cases hoffer : state.offer with
    | none =>
      rw [hoffer] at hrest
      obtain ⟨-, -, rfl⟩ := Prog.runs_ret.mp hrest
      exact ⟨rfl, fun p _ => rfl⟩
    | some offer =>
      rw [hoffer] at hrest
      obtain ⟨first, second, update, m', rfl, havailable, hend⟩ := Prog.runs_bind.mp hrest
      obtain ⟨-, -, rfl⟩ := Prog.runs_ret.mp hend
      obtain ⟨hsame, hfiles⟩ := available_frame havailable
      exact ⟨hsame, fun p hp => hfiles p fun s hs => hp.2 offer s (hstate ▸ hoffer) hs⟩
  | installFailed text why run =>
    obtain ⟨first, rest, _, m, rfl, hmark, hrest⟩ := Prog.runs_bind.mp run
    obtain ⟨hmstate, hmfiles⟩ : m.state.offer = w.state.offer ∧ ∀ p, (∀ version, p ≠ e.marker version) → m.files p = w.files p := by
      unfold markText at hmark
      split at hmark
      · rename_i version hversion
        obtain ⟨-, hexact⟩ := Prog.runs_op.mp hmark
        exact ⟨exact_offer hexact trivial, fun p hp => exact_frame hexact (hp version)⟩
      · obtain ⟨-, -, rfl⟩ := Prog.runs_ret.mp hmark
        exact ⟨rfl, fun p _ => rfl⟩
    obtain ⟨_, m', rest, rfl, hmodify, hread⟩ := Prog.runs_op_bind.mp hrest
    obtain ⟨state, m'', rest, rfl, ⟨hstate, hm''⟩, hoffered⟩ := Prog.runs_op_bind.mp hread
    obtain rfl : m'' = m' := hm''
    have hoffer' : m''.state.offer = w.state.offer := by rw [show m'' = _ from hmodify, ← hmstate]
    have hfiles' : m''.files = m.files := by rw [show m'' = _ from hmodify]
    cases hoffer : state.offer with
    | none =>
      rw [hoffer] at hoffered
      obtain ⟨-, -, rfl⟩ := Prog.runs_ret.mp hoffered
      exact ⟨hoffer', fun p hp => by rw [hfiles', hmfiles p hp.1]⟩
    | some offer =>
      rw [hoffer] at hoffered
      obtain ⟨third, fourth, update, u, rfl, havailable, hannounce⟩ := Prog.runs_bind.mp hoffered
      obtain ⟨-, hexact⟩ := Prog.runs_op.mp hannounce
      obtain rfl : t = u := hexact
      obtain ⟨hsame, hfiles⟩ := available_frame havailable
      refine ⟨hsame.trans hoffer', fun p hp => ?_⟩
      rw [hfiles p fun s hs => hp.2 offer s (by rw [← hoffer', ← hstate, hoffer]) hs, hfiles', hmfiles p hp.1]
  | signedIn n => exact ⟨rfl, fun p _ => rfl⟩

theorem envs_frame (h : Relation.ReflTransGen (Env e) w t) :
    t.state.offer = w.state.offer ∧ ∀ p, Spared e w.state p → t.files p = w.files p := by
  induction h with
  | refl => exact ⟨rfl, fun p _ => rfl⟩
  | tail _ hstep ih =>
    obtain ⟨hoffer, hfiles⟩ := env_frame hstep
    refine ⟨hoffer.trans ih.1, fun p hp => ?_⟩
    rw [hfiles p ⟨hp.1, fun o s ho hs => hp.2 o s (ih.1 ▸ ho) hs⟩, ih.2 p hp]

theorem interleaved_frame {o : IoOp} {answer : o.Answer} (h : Interleaved e o w answer t) (hp : e.Leaves o path)
    (hspared : Spared e w.state path) : t.files path = w.files path := by
  obtain ⟨m, henv, hexact⟩ := h
  rw [exact_frame hexact hp, (envs_frame henv).2 path hspared]

theorem interleaved_offer {o : IoOp} {answer : o.Answer} (h : Interleaved e o w answer t) (ho : o.KeepsOffer) :
    t.state.offer = w.state.offer := by
  obtain ⟨m, henv, hexact⟩ := h
  rw [exact_offer hexact ho, (envs_frame henv).1]

end CitadelAgent.Updater
