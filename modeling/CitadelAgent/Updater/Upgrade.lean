import CitadelAgent.Updater.Cache

/-!
# Only a verified upgrade is installed

* `Acceptance` : what one run of `fetchAndVerify` that accepted has checked; `fetch_accepts`;
* `Reaches` : the histories of an engine, with its checks interleaved with everything that does not wait for them;
* `OfferOk` : what is offered as staged is what a check of the history accepted, unchanged; `reaches_offerOk`;
* `only_verified_upgrades` : what `Installer::install` is called with, and when.
-/

namespace CitadelAgent.Updater
open Prog (Event Runs Ends Only)

variable {e : Engine} {w t : World} {events : List IoCall}

def Got (events : List IoCall) (o : IoOp) (answer : o.Answer) : Prop := ∃ w t, (⟨o, w, answer, t⟩ : IoCall) ∈ events

/-! ## A step that succeeded -/

variable {f : String → Refusal} {release : Release} {method : Method} {path : PathBuf} {version : Version} {offer : Offer}

theorem callAs_ok {α : Type} {x : Io (Except String α)} {a : α}
    (run : Ends (Interleaved e) (callAs f x) w events (.ok a) t) : Runs (Interleaved e) x w events (.ok a) t := by
  obtain ⟨first, second, answer, m, rfl, hx, hrest⟩ := Prog.ends_lift_bind.mp run
  match answer with
  | .ok b =>
    obtain ⟨rfl, hb, rfl⟩ := Prog.ends_pure.mp hrest
    rw [List.append_nil, Except.ok.inj hb]
    exact hx
  | .error why => exact absurd (Prog.ends_throw.mp hrest).2.1 (by simp)

theorem failAs_ok {α : Type} {r : Except String α} {a : α}
    (run : Ends (Interleaved e) (failAs f r) w events (.ok a) t) : r = .ok a ∧ events = [] ∧ t = w := by
  match r with
  | .ok b =>
    obtain ⟨rfl, hb, rfl⟩ := Prog.ends_pure.mp run
    exact ⟨by rw [Except.ok.inj hb], rfl, rfl⟩
  | .error why => exact absurd (Prog.ends_throw.mp run).2.1 (by simp)

theorem settle_ok {verdict : Verdict} (run : Ends (Interleaved e) (settle verdict) w events (.ok ()) t) :
    verdict = .accept ∧ events = [] ∧ t = w := by
  match verdict with
  | .accept =>
    obtain ⟨rfl, -, rfl⟩ := Prog.ends_pure.mp run
    exact ⟨rfl, rfl, rfl⟩
  | .linkOnly why => exact absurd (Prog.ends_throw.mp run).2.1 (by simp)
  | .refuse why => exact absurd (Prog.ends_throw.mp run).2.1 (by simp)

/-! ## Acceptance -/

def SignedOver (e : Engine) (tag name : String) (digest : Sha256) (signature : String) : Prop :=
  ∃ key message bytes, parsePublicKey e.releaseKey = .ok key ∧ signedMessage tag name digest = .ok message ∧
    decodeExact SIGNATURE_LEN (trim signature.toList) = .ok bytes ∧ e.lib.mlDsa.verifies key message bytes.val = true

/-- One run of `fetchAndVerify`, from its first call to its last, that accepted `path` as `version`. -/
structure Acceptance (e : Engine) (fetched : List IoCall) (version : Version) (path : PathBuf) (file : File)
    (release : Release) (name : String) (method : Method) (downloaded : File) : Prop where
  planned : e.plan = .apply name method
  run : ∃ w t, Ends (Interleaved e) (fetchAndVerify e release version name method) w fetched (.ok path) t ∧
    t.files path = some file
  named : versionOfTag release.tagName = some version
  upgrade : isUpgrade e.current version = true
  download : ∃ url dest size before after,
    (⟨.download url dest size, before, .ok (), after⟩ : IoCall) ∈ fetched ∧ after.files dest = some downloaded
  signed : ∃ url text, Got fetched (.text url MAX_SIGNATURE_BYTES) (.ok text) ∧
    SignedOver e release.tagName name (e.lib.sha256 downloaded.bytes) text
  checksum : ∃ url text expected, Got fetched (.text url MAX_CHECKSUM_BYTES) (.ok text) ∧
    expectedSha256 text name = .ok expected ∧ eqIgnoreCase expected (e.lib.sha256 downloaded.bytes).hex = true
  provenance : ∃ bundles answer,
    Got fetched (.verify (e.lib.sha256 downloaded.bytes).hex bundles release.tagName) answer ∧
      (answer = .verified ∨ answer = .absent ∧ method = .macApp)
  stagedFrom : StagedFrom e.lib downloaded method file
  printed : method ≠ .macApp → ∃ line, Got fetched (.versionOf path) (.ok line) ∧
    trim line.toList = (versionLine version).toList

def Accepted (e : Engine) (fetched : List IoCall) (version : Version) (path : PathBuf) (file : File) : Prop :=
  ∃ release name method downloaded, Acceptance e fetched version path file release name method downloaded

theorem consult_ok {actual : String} {consulted : Bool} {provenance : Provenance}
    (run : Ends (Interleaved e) (consult release actual consulted) w events (.ok provenance) t) :
    (consulted = true → ∃ bundles, Got events (.verify actual bundles release.tagName) provenance) ∧
      t.state.offer = w.state.offer ∧ ∀ p, Spared e w.state p → t.files p = w.files p := by
  unfold consult at run
  split at run
  · obtain ⟨first, second, bundles, m, rfl, hattest, hverify⟩ := Prog.ends_bind_ok.mp run
    obtain ⟨answer, hanswer, hverify⟩ := Prog.ends_lift.mp hverify
    obtain rfl := Except.ok.inj hanswer
    obtain ⟨rfl, hattested⟩ := Prog.runs_op.mp (callAs_ok hattest)
    obtain ⟨rfl, hverified⟩ := Prog.runs_op.mp hverify
    have hoffer := interleaved_offer hattested trivial
    refine ⟨fun _ => ⟨bundles, m, t, by simp⟩, (interleaved_offer hverified trivial).trans hoffer, fun p hp => ?_⟩
    have hp' : Spared e m.state p := ⟨hp.1, fun o s ho hs => hp.2 o s (hoffer ▸ ho) hs⟩
    rw [interleaved_frame hverified trivial hp', interleaved_frame hattested trivial hp]
  · obtain ⟨rfl, -, rfl⟩ := Prog.ends_pure.mp run
    exact ⟨fun h => absurd h ‹_›, rfl, fun p _ => rfl⟩

theorem printedBy_ok {runnable : PathBuf} {printed : Option String}
    (run : Ends (Interleaved e) (printedBy method runnable) w events (.ok printed) t) :
    (∀ line, printed = some line → Got events (.versionOf runnable) (.ok line)) ∧ (method ≠ .macApp → printed ≠ none) ∧
      t.state.offer = w.state.offer ∧ ∀ p, Spared e w.state p → t.files p = w.files p := by
  have hran : ∀ {events : List IoCall} {t : World}, Ends (Interleaved e) (do
      let line ← callAs .refused (Io.versionOf runnable)
      pure (some line)) w events (.ok printed) t →
      (∀ line, printed = some line → Got events (.versionOf runnable) (.ok line)) ∧ printed ≠ none ∧
      t.state.offer = w.state.offer ∧ ∀ p, Spared e w.state p → t.files p = w.files p := by
    intro events t run
    obtain ⟨first, second, line, m, rfl, hrun, hend⟩ := Prog.ends_bind_ok.mp run
    obtain ⟨rfl, hprinted, rfl⟩ := Prog.ends_pure.mp hend
    obtain rfl := Except.ok.inj hprinted
    obtain ⟨rfl, hversion⟩ := Prog.runs_op.mp (callAs_ok hrun)
    refine ⟨fun line' hline => ?_, Option.some_ne_none _, interleaved_offer hversion trivial,
      fun p hp => interleaved_frame hversion trivial hp⟩
    obtain rfl := Option.some.inj hline
    exact ⟨w, t, by simp⟩
  cases method with
  | macApp =>
    obtain ⟨rfl, hprinted, rfl⟩ := Prog.ends_pure.mp run
    obtain rfl := Except.ok.inj hprinted
    exact ⟨fun _ h => by simp at h, fun h => absurd rfl h, rfl, fun p _ => rfl⟩
  | tarball =>
    obtain ⟨h₁, h₂, h₃⟩ := hran run
    exact ⟨h₁, fun _ => h₂, h₃⟩
  | appImage =>
    obtain ⟨h₁, h₂, h₃⟩ := hran run
    exact ⟨h₁, fun _ => h₂, h₃⟩

/-- A staged file of another version's offer is in another directory. -/
def Elsewhere (e : Engine) (s : EngineState) (version : Version) : Prop :=
  ∀ offer staged, s.offer = some offer → offer.staged = some staged → ∃ v, Placed e v staged ∧ v.toText ≠ version.toText

theorem Elsewhere.spared {s : EngineState} (h : Elsewhere e s version) (hpath : Placed e version path) : Spared e s path := by
  refine ⟨fun v => hpath.ne_marker v.toText, fun offer staged ho hs heq => ?_⟩
  obtain ⟨v, hplaced, hne⟩ := h offer staged ho hs
  exact hne (hplaced.launchLog.text_eq (heq ▸ hpath))

theorem stage_ok {name : OsStr} {downloaded : File}
    (h : Interleaved e (.stage method ((e.versionDir version).join name)) w (.ok path) t)
    (hspared : ∀ p, Placed e version p → Spared e w.state p)
    (hfile : w.files ((e.versionDir version).join name) = some downloaded) :
    Placed e version path ∧ ∃ file, t.files path = some file ∧ StagedFrom e.lib downloaded method file := by
  obtain ⟨m, henv, hexact⟩ := h
  have hplaced := placed_download e version name
  have hm : m.files ((e.versionDir version).join name) = some downloaded :=
    ((envs_frame henv).2 _ (hspared _ hplaced)).trans hfile
  cases method with
  | macApp =>
    obtain ⟨hpath, rfl⟩ := hexact
    rw [Except.ok.inj hpath]
    exact ⟨hplaced, downloaded, hm, rfl⟩
  | appImage =>
    obtain ⟨rfl, f, hf, rfl⟩ := hexact
    obtain rfl := Option.mem_unique hf hm
    exact ⟨hplaced, _, Function.update_self _ _ _, rfl⟩
  | tarball =>
    obtain ⟨files, rfl, -, hstaged⟩ := hexact
    obtain ⟨rfl, f, content, hf, huntar, hnew⟩ := hstaged path rfl
    obtain rfl := Option.mem_unique hf hm
    exact ⟨placed_staged e version name _ _, _, hnew, content, huntar, rfl⟩

theorem fetch_accepts {name : String} (hplan : e.plan = .apply name method) (hnamed : versionOfTag release.tagName = some version)
    (helse : Elsewhere e w.state version)
    (run : Ends (Interleaved e) (fetchAndVerify e release version name method) w events (.ok path) t) :
    Placed e version path ∧ t.state.offer = w.state.offer ∧
      ∃ file, t.files path = some file ∧ Accepted e events version path file := by
  have hwhole := run
  obtain ⟨_, rest, ⟨asset, signature, checksum⟩, w₀, rfl, hassets, run₀⟩ := Prog.ends_bind_ok.mp run
  obtain ⟨rfl, -, rfl⟩ := Prog.ends_ofExcept.mp hassets
  dsimp only at run₀
  obtain ⟨_, rest₁, text, w₁, rfl, ran_text, run₁⟩ := Prog.ends_bind_ok.mp run₀
  obtain ⟨rfl, htext⟩ := Prog.runs_op.mp (callAs_ok ran_text)
  obtain ⟨_, rest₂, expected, w₂, rfl, ran_expected, run₂⟩ := Prog.ends_bind_ok.mp run₁
  obtain ⟨hexpected, rfl, rfl⟩ := failAs_ok ran_expected
  obtain ⟨_, rest₃, sigText, w₃, rfl, ran_sig, run₃⟩ := Prog.ends_bind_ok.mp run₂
  obtain ⟨rfl, hsig⟩ := Prog.runs_op.mp (callAs_ok ran_sig)
  obtain ⟨_, rest₄, dest, w₄, rfl, ran_dest, run₄⟩ := Prog.ends_bind_ok.mp run₃
  obtain ⟨rfl, hdest⟩ := Prog.runs_op.mp (callAs_ok ran_dest)
  obtain ⟨_, rest₅, _, w₅, rfl, ran_download, run₅⟩ := Prog.ends_bind_ok.mp run₄
  obtain ⟨rfl, hdownload⟩ := Prog.runs_op.mp (callAs_ok ran_download)
  obtain ⟨_, rest₆, actual, w₆, rfl, ran_actual, run₆⟩ := Prog.ends_bind_ok.mp run₅
  obtain ⟨rfl, hactual⟩ := Prog.runs_op.mp (callAs_ok ran_actual)
  obtain ⟨consulting, rest₇, provenance, w₇, rfl, hconsult, run₇⟩ := Prog.ends_bind_ok.mp run₆
  obtain ⟨_, rest₈, _, w₈, rfl, ran_judge, run₈⟩ := Prog.ends_bind_ok.mp run₇
  obtain ⟨hjudge, rfl, rfl⟩ := settle_ok ran_judge
  obtain ⟨_, rest₉, runnable, w₉, rfl, ran_stage, run₉⟩ := Prog.ends_bind_ok.mp run₈
  obtain ⟨rfl, hstage⟩ := Prog.runs_op.mp (callAs_ok ran_stage)
  obtain ⟨printing, rest₁₀, printed, w₁₀, rfl, hprint, run₁₀⟩ := Prog.ends_bind_ok.mp run₉
  obtain ⟨_, rest₁₁, _, w₁₁, rfl, ran_settle, ran_end⟩ := Prog.ends_bind_ok.mp run₁₀
  obtain ⟨hsettle, rfl, rfl⟩ := settle_ok ran_settle
  obtain ⟨rfl, hpath, rfl⟩ := Prog.ends_pure.mp ran_end
  obtain rfl := Except.ok.inj hpath
  -- the offer stays what it was, so nothing beside the check changes what is placed here
  have ho₁ := interleaved_offer htext trivial
  have ho₃ := (interleaved_offer hsig trivial).trans ho₁
  have ho₄ := (interleaved_offer hdest trivial).trans ho₃
  have ho₅ := (interleaved_offer hdownload trivial).trans ho₄
  have ho₆ := (interleaved_offer hactual trivial).trans ho₅
  have hspared : ∀ {s : EngineState}, s.offer = w₀.state.offer → ∀ p, Placed e version p → Spared e s p :=
    fun hs p hp => Elsewhere.spared (fun o staged ho => helse o staged (hs ▸ ho)) hp
  obtain ⟨hconsulted, ho, hfiles₇⟩ := consult_ok hconsult
  have ho₇ := ho.trans ho₆
  -- the download, still there when it is hashed and when it is staged
  obtain ⟨m₄, -, hpath, -⟩ := hdest
  obtain rfl := hpath dest rfl
  have hplaced := placed_download e version (osStr name)
  obtain ⟨m₅, -, downloaded, -, hw₅⟩ := hdownload
  have hfile₅ : w₅.files ((e.versionDir version).join (osStr name)) = some downloaded := by
    rw [hw₅]
    exact Function.update_self _ _ _
  obtain ⟨m₆, henv₆, hw₆, hdigest⟩ := hactual
  have hfile₆ : m₆.files ((e.versionDir version).join (osStr name)) = some downloaded :=
    ((envs_frame henv₆).2 _ (hspared ho₅ _ hplaced)).trans hfile₅
  obtain ⟨f, hf, rfl⟩ := hdigest actual rfl
  obtain rfl := Option.mem_unique hf hfile₆
  have hfile₇ : w₈.files ((e.versionDir version).join (osStr name)) = some f := by
    rw [hfiles₇ _ (hspared ho₆ _ hplaced), show w₆ = m₆ from hw₆, hfile₆]
  obtain ⟨hrunnable, file, hfile₉, hfrom⟩ := stage_ok hstage (hspared ho₇) hfile₇
  have ho₉ := (interleaved_offer hstage trivial).trans ho₇
  obtain ⟨hran, hmust, ho₁₀, hfiles₁₀⟩ := printedBy_ok hprint
  obtain ⟨hverified, hup, hsum, hprov⟩ := judgeDownload_accept hjudge
  obtain ⟨sigText', key, message, bytes, hsome, hsigned⟩ := checkSignature_verified hverified
  obtain rfl := Option.some.inj hsome
  obtain ⟨bundles, hbundles⟩ := hconsulted (by rw [hverified, hsum]; rfl)
  have hend : t.files path = some file := by rw [hfiles₁₀ path (hspared ho₉ _ hrunnable), hfile₉]
  refine ⟨hrunnable, ho₁₀.trans ho₉, file, hend, release, name, method, f, ?_⟩
  constructor
  case planned => exact hplan
  case run => exact ⟨_, _, hwhole, hend⟩
  case named => exact hnamed
  case upgrade => exact hup
  case download => exact ⟨_, _, _, w₄, w₅, .tail _ (.tail _ (.tail _ (.head _))), hfile₅⟩
  case signed => exact ⟨_, _, ⟨w₂, w₃, .tail _ (.head _)⟩, key, message, bytes, hsigned⟩
  case checksum => exact ⟨_, _, expected, ⟨w₀, w₂, .head _⟩, hexpected, hsum⟩
  case provenance =>
    obtain ⟨before, after, hmem⟩ := hbundles
    exact ⟨bundles, provenance, ⟨before, after, by simp [hmem]⟩, hprov⟩
  case stagedFrom => exact hfrom
  case printed =>
    intro hmethod
    rcases judgeStaged_accept hsettle with ⟨hnone, -⟩ | ⟨line, hline, htrim⟩
    · exact absurd hnone (hmust hmethod)
    · obtain ⟨before, after, hmem⟩ := hran line hline
      exact ⟨line, ⟨before, after, by simp [hmem]⟩, htrim⟩

/-! ## A run that spares a path -/

theorem runs_offer {α : Type} {x : Io α} {a : α} (run : Runs (Interleaved e) x w events a t) (honly : Only IoOp.KeepsOffer x) :
    t.state.offer = w.state.offer := by
  induction run with
  | ret a s => rfl
  | call made rest ih => exact (ih (honly.2 _)).trans (interleaved_offer made honly.1)

theorem runs_spared {α : Type} {x : Io α} {a : α} (run : Runs (Interleaved e) x w events a t)
    (honly : Only (fun o => o.KeepsOffer ∧ e.Leaves o path) x) (hspared : Spared e w.state path) :
    t.files path = w.files path := by
  induction run with
  | ret a s => rfl
  | call made rest ih =>
    obtain ⟨⟨hkeeps, hleaves⟩, hnext⟩ := honly
    have hoffer := interleaved_offer made hkeeps
    rw [ih (hnext _) ⟨hspared.1, fun o s ho hs => hspared.2 o s (hoffer ▸ ho) hs⟩, interleaved_frame made hleaves hspared]

theorem tell_only {R : IoOp → Prop} (hcan : ∀ s, offer.staged = some s → R (.canInstall s)) (hfailed : R (.failed offer.version))
    (hmodify : ∀ f, (∀ s, (f s).offer = s.offer) → R (.modify f)) (hannounce : ∀ update, R (.announce update)) : Only R (tell e offer) := by
  have hready : Only R (ready offer) := by
    unfold ready
    split
    · exact trivial
    · rename_i staged hstaged
      refine Only.bind (Only.op (hcan staged hstaged)) fun answer => ?_
      split
      · exact trivial
      · exact trivial
  refine Only.bind (Only.bind (Only.op hfailed) fun why => ?_) fun _ =>
    Only.bind (Only.bind hready fun _ => trivial) fun update => Only.op (hannounce update)
  split
  · exact Only.op (hmodify _ fun _ => rfl)
  · exact trivial

/-! ## What is offered as staged -/

/-- What is staged is a file that `P` holds of, in the directory of its version. -/
def OfferOk (e : Engine) (P : Version → PathBuf → File → Prop) (w : World) : Prop :=
  ∀ offer, w.state.offer = some offer → offer.version.Plain ∧
    ∀ staged, offer.staged = some staged → offer.settled = true ∧ Placed e offer.version staged ∧
      ∃ file, w.files staged = some file ∧ P offer.version staged file

variable {P Q : Version → PathBuf → File → Prop}

theorem OfferOk.spared (h : OfferOk e P w) {staged : PathBuf} (hoffer : w.state.offer = some offer)
    (hstaged : offer.staged = some staged) : Spared e w.state staged := by
  obtain ⟨-, hplaced, -⟩ := (h offer hoffer).2 staged hstaged
  refine ⟨fun v => hplaced.ne_marker v.toText, fun o s ho hs => ?_⟩
  obtain rfl := Option.mem_unique ho hoffer
  obtain rfl := Option.mem_unique hs hstaged
  exact hplaced.ne_launchLog

theorem OfferOk.mono (h : OfferOk e P w) (hPQ : ∀ v p f, P v p f → Q v p f) : OfferOk e Q w := by
  intro offer hoffer
  obtain ⟨hplain, hstaged⟩ := h offer hoffer
  refine ⟨hplain, fun staged hs => ?_⟩
  obtain ⟨hsettled, hplaced, file, hfile, hP⟩ := hstaged staged hs
  exact ⟨hsettled, hplaced, file, hfile, hPQ _ _ _ hP⟩

theorem OfferOk.kept (h : OfferOk e P w) (ho : t.state.offer = w.state.offer)
    (hf : ∀ offer staged, w.state.offer = some offer → offer.staged = some staged → t.files staged = w.files staged) :
    OfferOk e P t := by
  intro offer hoffer
  rw [ho] at hoffer
  obtain ⟨hplain, hstaged⟩ := h offer hoffer
  refine ⟨hplain, fun staged hs => ?_⟩
  rw [hf offer staged hoffer hs]
  exact hstaged staged hs

theorem OfferOk.env (h : OfferOk e P w) (step : Env e w t) : OfferOk e P t := by
  obtain ⟨ho, hf⟩ := env_frame step
  exact h.kept ho fun offer staged hoffer hs => hf staged (h.spared hoffer hs)

theorem OfferOk.call (h : OfferOk e P w) {o : IoOp} {answer : o.Answer} (made : Interleaved e o w answer t)
    (ho : o.KeepsOffer) (hleaves : ∀ p, e.Leaves o p) : OfferOk e P t :=
  h.kept (interleaved_offer made ho) fun _ staged hoffer hs => interleaved_frame made (hleaves staged) (h.spared hoffer hs)

/-- One run of `fetchAndVerify` among these events accepted the file. -/
def AcceptedAmong (e : Engine) (events : List IoCall) (version : Version) (path : PathBuf) (file : File) : Prop :=
  ∃ first fetched second, events = first ++ fetched ++ second ∧ Accepted e fetched version path file

theorem AcceptedAmong.widen {file : File} (h : AcceptedAmong e events version path file)
    (before after : List IoCall) : AcceptedAmong e (before ++ (events ++ after)) version path file := by
  obtain ⟨first, fetched, second, rfl, haccepted⟩ := h
  exact ⟨before ++ first, fetched, second ++ after, by simp, haccepted⟩

theorem prepare_staged (hnamed : versionOfTag release.tagName = some version) (helse : Elsewhere e w.state version)
    (run : Runs (Interleaved e) (prepare e release version) w events offer t) :
    offer.version = version ∧ ∀ staged, offer.staged = some staged → offer.settled = true ∧ Placed e version staged ∧
      Spared e t.state staged ∧ ∃ file, t.files staged = some file ∧ AcceptedAmong e events version staged file := by
  unfold prepare at run
  split at run
  · obtain ⟨-, rfl, -⟩ := Prog.runs_ret.mp run
    exact ⟨rfl, fun staged hs => absurd hs (by simp)⟩
  · rename_i asset method hplan
    obtain ⟨fetched, rest, r, m, rfl, hfetch, hrest⟩ := Prog.runs_bind.mp run
    match r with
    | .error refusal =>
      obtain ⟨_, m₁, rest₁, rfl, -, hrest⟩ := Prog.runs_op_bind.mp hrest
      obtain ⟨_, m₂, rest₂, rfl, -, hend⟩ := Prog.runs_op_bind.mp hrest
      obtain ⟨-, rfl, -⟩ := Prog.runs_ret.mp hend
      exact ⟨rfl, fun staged hs => absurd hs (by simp)⟩
    | .ok path =>
      obtain ⟨_, m₁, rest₁, rfl, hmodify, hend⟩ := Prog.runs_op_bind.mp hrest
      obtain ⟨rfl, rfl, rfl⟩ := Prog.runs_ret.mp hend
      obtain ⟨hplaced, hoffer, file, hfile, haccepted⟩ := fetch_accepts hplan hnamed helse hfetch
      have hspared : ∀ {s : EngineState}, s.offer = w.state.offer → Spared e s path :=
        fun hs => Elsewhere.spared (fun o staged ho => helse o staged (hs ▸ ho)) hplaced
      have hkept := interleaved_offer hmodify fun _ => rfl
      refine ⟨rfl, fun staged hs => ?_⟩
      obtain rfl := Option.some.inj hs
      refine ⟨rfl, hplaced, hspared (hkept.trans hoffer), file, ?_, [], fetched, _, rfl, haccepted⟩
      rw [interleaved_frame hmodify trivial (hspared hoffer), hfile]

theorem offerFor_ok (hnamed : versionOfTag release.tagName = some version) (hok : OfferOk e P w)
    (run : Runs (Interleaved e) (offerFor e release version) w events offer t) :
    t.state.offer = some offer ∧ OfferOk e (fun v p f => P v p f ∨ AcceptedAmong e events v p f) t := by
  obtain ⟨state, m, rest, rfl, hread, hrest⟩ := Prog.runs_op_bind.mp run
  have hm := hok.call hread trivial fun _ => trivial
  obtain ⟨m', -, hstate, rfl⟩ := hread
  obtain rfl : state = m.state := hstate
  cases hknown : m.state.offer.filter fun o => o.version = version && o.settled with
  | some known =>
    rw [hknown] at hrest
    obtain ⟨rfl, rfl, rfl⟩ := Prog.runs_ret.mp hrest
    exact ⟨(Option.filter_eq_some_iff.mp hknown).1, hm.mono fun _ _ _ => .inl⟩
  | none =>
    rw [hknown] at hrest
    have helse : Elsewhere e m.state version := by
      intro o staged ho hs
      obtain ⟨hplain, hstaged⟩ := hm o ho
      obtain ⟨hsettled, hplaced, -⟩ := hstaged staged hs
      refine ⟨o.version, hplaced, fun htext => ?_⟩
      have hsame := toText_inj hplain (versionOfTag_plain hnamed) htext
      rw [ho] at hknown
      simp [hsame, hsettled] at hknown
    obtain ⟨first, second, prepared, m₁, rfl, hprepare, hset⟩ := Prog.runs_bind.mp hrest
    obtain ⟨_, m₂, rest₂, rfl, ⟨m₃, henv, hexact⟩, hend⟩ := Prog.runs_op_bind.mp hset
    obtain ⟨rfl, rfl, rfl⟩ := Prog.runs_ret.mp hend
    obtain ⟨hversion, hstaged⟩ := prepare_staged hnamed helse hprepare
    have ht : t = { m₃ with state := { m₃.state with offer := some offer } } := hexact
    rw [ht]
    refine ⟨rfl, fun o ho => ?_⟩
    obtain rfl := Option.some.inj ho
    rw [hversion]
    refine ⟨versionOfTag_plain hnamed, fun staged hs => ?_⟩
    obtain ⟨hsettled, hplaced, hspared, file, hfile, haccepted⟩ := hstaged staged hs
    refine ⟨hsettled, hplaced, file, ?_, .inr (haccepted.widen [_] [_])⟩
    rw [← hfile]
    exact (envs_frame henv).2 staged hspared

theorem check_ok (hok : OfferOk e P w) (run : Runs (Interleaved e) (check e) w events () t) :
    OfferOk e (fun v p f => P v p f ∨ AcceptedAmong e events v p f) t := by
  obtain ⟨state, w₁, rest₁, rfl, hread, run⟩ := Prog.runs_op_bind.mp run
  obtain ⟨fetched, w₂, rest₂, rfl, hlatest, run⟩ := Prog.runs_op_bind.mp run
  obtain ⟨now, w₃, rest₃, rfl, hnow, run⟩ := Prog.runs_op_bind.mp run
  obtain ⟨noted, w₄, rest₄, rfl, hnote, run⟩ := Prog.runs_op_bind.mp run
  have h₄ := (((hok.call hread trivial fun _ => trivial).call hlatest trivial fun _ => trivial).call hnow trivial
    fun _ => trivial).call hnote trivial fun _ => trivial
  cases noted with
  | none =>
    obtain ⟨rfl, -, rfl⟩ := Prog.runs_ret.mp run
    exact h₄.mono fun _ _ _ => .inl
  | some release =>
    dsimp only at run
    unfold weigh at run
    cases hcandidate : candidate release e.current with
    | none why =>
      rw [hcandidate] at run
      obtain ⟨-, m, -, hmodify⟩ := Prog.runs_op.mp run
      have ht : t = { m with state := { m.state with offer := none, lastError := none } } := hmodify
      rw [ht]
      exact fun offer hoffer => absurd hoffer (by simp)
    | upgrade version =>
      rw [hcandidate] at run
      obtain ⟨first, second, offer, m, rfl, hoffer, htell⟩ := Prog.runs_bind.mp run
      obtain ⟨hstate, hm⟩ := offerFor_ok (candidate_upgrade hcandidate).1 h₄ hoffer
      refine (hm.kept (runs_offer htell ?_) fun offer' staged hoffer' hs => ?_).mono fun v p f h => ?_
      · exact tell_only (fun _ _ => trivial) trivial (fun f hf => hf) fun _ => trivial
      · obtain rfl := Option.mem_unique hoffer' hstate
        have hspared := hm.spared hstate hs
        exact runs_spared htell (tell_only (fun s hs => ⟨trivial, hspared.2 offer' s hstate hs⟩) ⟨trivial, trivial⟩
          (fun f hf => ⟨hf, trivial⟩) fun _ => ⟨trivial, trivial⟩) hspared
      · exact h.imp id fun haccepted => haccepted.widen [_, _, _, _] second

/-! ## A check installs nothing -/

def IoOp.InstallsNothing : IoOp → Prop
  | .install _ _ => False
  | _ => True

theorem failAs_only {α : Type} {R : IoOp → Prop} (r : Except String α) : Only R (failAs f r).run := by
  match r with
  | .ok _ => exact trivial
  | .error _ => exact trivial

theorem callAs_only {α : Type} {R : IoOp → Prop} {x : Io (Except String α)} (hx : Only R x) :
    Only R (callAs f x).run :=
  Only.fallible (Only.bind hx fun _ => trivial) failAs_only

theorem settle_only {R : IoOp → Prop} (verdict : Verdict) : Only R (settle verdict).run := by
  match verdict with
  | .accept => exact trivial
  | .linkOnly _ => exact trivial
  | .refuse _ => exact trivial

theorem fetchAndVerify_only (e : Engine) (release : Release) (version : Version) (name : String) (method : Method) :
    Only IoOp.InstallsNothing (fetchAndVerify e release version name method).run := by
  refine Only.fallible trivial fun assets => ?_
  refine Only.fallible (callAs_only (Only.op trivial)) fun text => ?_
  refine Only.fallible (failAs_only _) fun expected => ?_
  refine Only.fallible (callAs_only (Only.op trivial)) fun signature => ?_
  refine Only.fallible (callAs_only (Only.op trivial)) fun path => ?_
  refine Only.fallible (callAs_only (Only.op trivial)) fun _ => ?_
  refine Only.fallible (callAs_only (Only.op trivial)) fun actual => ?_
  refine Only.fallible ?_ fun provenance => ?_
  · unfold consult
    split
    · exact Only.fallible (callAs_only (Only.op trivial)) fun bundles => Only.bind (Only.op trivial) fun _ => trivial
    · exact trivial
  refine Only.fallible (settle_only _) fun _ => ?_
  refine Only.fallible (callAs_only (Only.op trivial)) fun runnable => ?_
  refine Only.fallible ?_ fun printed => Only.fallible (settle_only _) fun _ => trivial
  match method with
  | .macApp => exact trivial
  | .tarball => exact Only.fallible (callAs_only (Only.op trivial)) fun _ => trivial
  | .appImage => exact Only.fallible (callAs_only (Only.op trivial)) fun _ => trivial

theorem prepare_only (e : Engine) (release : Release) (version : Version) : Only IoOp.InstallsNothing (prepare e release version) := by
  unfold prepare
  split
  · exact trivial
  · refine Only.bind (fetchAndVerify_only _ _ _ _ _) fun r => ?_
    match r with
    | .ok staged => exact Only.bind (Only.op trivial) fun _ => trivial
    | .error refusal => exact Only.bind (Only.op trivial) fun _ => Only.bind (Only.op trivial) fun _ => trivial

theorem check_only (e : Engine) : Only IoOp.InstallsNothing (check e) := by
  refine Only.bind (Only.op trivial) fun state => ?_
  refine Only.bind (Only.op trivial) fun fetched => ?_
  refine Only.bind (Only.op trivial) fun now => ?_
  refine Only.bind (Only.op trivial) fun noted => ?_
  split
  · exact trivial
  · unfold weigh
    split
    · exact Only.op trivial
    · refine Only.bind (Only.bind (Only.op trivial) fun known => ?_) fun offer =>
        tell_only (fun _ _ => trivial) trivial (fun _ _ => trivial) fun _ => trivial
      split
      · exact trivial
      · exact Only.bind (prepare_only _ _ _) fun _ => Only.bind (Only.op trivial) fun _ => trivial

/-! ## What considering installs -/

theorem failedFor_runs {staged : Option (Offer × PathBuf)} {failed : Bool}
    (run : Runs e.Exact (failedFor staged) w events failed t) :
    t = w ∧ (∀ c ∈ events, c.op.InstallsNothing) ∧ ∀ offer path, staged = some (offer, path) → failed = false →
      w.files (e.marker offer.version) = none := by
  cases staged with
  | none =>
    obtain ⟨rfl, -, rfl⟩ := Prog.runs_ret.mp run
    exact ⟨rfl, fun c hc => absurd hc List.not_mem_nil, fun _ _ h => absurd h (by simp)⟩
  | some pair =>
    obtain ⟨offer, path⟩ := pair
    obtain ⟨why, m, rest, rfl, ⟨rfl, hnone⟩, hend⟩ := Prog.runs_op_bind.mp run
    obtain ⟨rfl, rfl, rfl⟩ := Prog.runs_ret.mp hend
    refine ⟨rfl, fun c hc => ?_, fun o p hsome hfailed => ?_⟩
    · rw [List.mem_singleton.mp hc]
      exact trivial
    · obtain ⟨rfl, rfl⟩ := Prod.mk.inj (Option.some.inj hsome)
      exact hnone (Option.not_isSome_iff_eq_none.mp (by rw [hfailed]; exact Bool.false_ne_true))

theorem installable_runs {staged : Option (Offer × PathBuf)} {answer : Option (Except String Unit)}
    (run : Runs e.Exact (installable staged) w events answer t) :
    t.state = w.state ∧ t.signedIn = w.signedIn ∧ (∀ c ∈ events, c.op.InstallsNothing) ∧
      ∀ p, (∀ offer path, staged = some (offer, path) → p ≠ launchLog path) → t.files p = w.files p := by
  cases staged with
  | none =>
    obtain ⟨rfl, -, rfl⟩ := Prog.runs_ret.mp run
    exact ⟨rfl, rfl, fun c hc => absurd hc List.not_mem_nil, fun _ _ => rfl⟩
  | some pair =>
    obtain ⟨offer, path⟩ := pair
    obtain ⟨answer, m, rest, rfl, ⟨files, hsame, rfl⟩, hend⟩ := Prog.runs_op_bind.mp run
    obtain ⟨rfl, -, rfl⟩ := Prog.runs_ret.mp hend
    refine ⟨rfl, rfl, fun c hc => ?_, fun p hp => hsame p (hp offer path rfl)⟩
    rw [List.mem_singleton.mp hc]
    exact trivial

theorem consider_ok {trigger : Trigger} {r : Except String Unit} (hok : OfferOk e P w)
    (run : Runs e.Exact (consider trigger) w events r t) :
    OfferOk e P t ∧ ∀ c ∈ events, ∀ path version, c.op = .install path version →
      ∃ offer, w.state.offer = some offer ∧ offer.version = version ∧ offer.staged = some path ∧
        c.before.files path = w.files path ∧
        (trigger = .idle → c.before.state.automatic = true ∧ c.before.signedIn = 0 ∧
          c.before.files (e.marker version) = none) := by
  obtain ⟨state, m, rest, rfl, ⟨rfl, rfl⟩, run₁⟩ := Prog.runs_op_bind.mp run
  obtain ⟨failing, rest₁, failed, m₁, rfl, hfailed, run₂⟩ := Prog.runs_bind.mp run₁
  obtain ⟨asking, rest₂, answer, m₂, rfl, hanswer, run₃⟩ := Prog.runs_bind.mp run₂
  obtain ⟨n, m₃, rest₃, rfl, ⟨hn, hm₃⟩, run₄⟩ := Prog.runs_op_bind.mp run₃
  obtain ⟨rfl, hfailing, hmarker⟩ := failedFor_runs hfailed
  obtain ⟨hstate, hsigned, hasking, hfiles⟩ := installable_runs hanswer
  obtain rfl : m₃ = m₂ := hm₃
  obtain rfl : n = m₃.signedIn := hn
  set staged := m₁.state.offer.bind fun o => o.staged.map fun path => (o, path) with hstagedDef
  have hstaged : ∀ {offer path}, staged = some (offer, path) → m₁.state.offer = some offer ∧ offer.staged = some path := by
    intro offer path h
    obtain ⟨o, ho, hpath⟩ := Option.bind_eq_some_iff.mp h
    obtain ⟨p, hp, hpair⟩ := Option.map_eq_some_iff.mp hpath
    obtain ⟨rfl, rfl⟩ := Prod.mk.inj hpair
    exact ⟨ho, hp⟩
  -- the last part: the install, or nothing
  have hact : (t.state.offer = m₃.state.offer ∧ t.files = m₃.files) ∧ ∀ c ∈ rest₃, ∀ path version, c.op = .install path version →
      c.before = m₃ ∧ ∃ offer, staged = some (offer, path) ∧ offer.version = version ∧
        (trigger = .idle → m₁.state.automatic = true ∧ m₃.signedIn = 0 ∧ failed = false) := by
    dsimp only at run₄
    split at run₄
    · rename_i offer path hdecide hsome
      obtain ⟨answer, m₄, rest₄, rfl, hm₄, run₅⟩ := Prog.runs_op_bind.mp run₄
      obtain rfl : m₃ = m₄ := hm₄.symm
      have hinstalled : ∀ path' version, IoOp.install path offer.version = .install path' version →
          ∃ o, staged = some (o, path') ∧ o.version = version ∧
            (trigger = .idle → m₁.state.automatic = true ∧ m₃.signedIn = 0 ∧ failed = false) := by
        intro path' version hop
        obtain ⟨rfl, rfl⟩ := IoOp.install.inj hop
        exact ⟨offer, hsome, rfl, fun hidle => (decide_install hdecide).2 hidle⟩
      match answer with
      | .ok _ =>
        obtain ⟨rfl, -, rfl⟩ := Prog.runs_ret.mp run₅
        refine ⟨⟨rfl, rfl⟩, fun c hc path' version hop => ?_⟩
        obtain rfl := List.mem_singleton.mp hc
        exact ⟨rfl, hinstalled path' version hop⟩
      | .error why =>
        obtain ⟨_, m₅, rest₅, rfl, hm₅, run₆⟩ := Prog.runs_op_bind.mp run₅
        obtain ⟨rfl, -, rfl⟩ := Prog.runs_ret.mp run₆
        rw [show t = _ from hm₅]
        refine ⟨⟨rfl, rfl⟩, fun c hc path' version hop => ?_⟩
        rcases List.mem_cons.mp hc with rfl | hc
        · exact ⟨rfl, hinstalled path' version hop⟩
        · rw [List.mem_singleton.mp hc] at hop
          exact nomatch hop
    · split at run₄
      · obtain ⟨rfl, -, rfl⟩ := Prog.runs_ret.mp run₄
        exact ⟨⟨rfl, rfl⟩, fun c hc => absurd hc List.not_mem_nil⟩
      · obtain ⟨rfl, -, rfl⟩ := Prog.runs_ret.mp run₄
        exact ⟨⟨rfl, rfl⟩, fun c hc => absurd hc List.not_mem_nil⟩
    · obtain ⟨rfl, -, rfl⟩ := Prog.runs_ret.mp run₄
      exact ⟨⟨rfl, rfl⟩, fun c hc => absurd hc List.not_mem_nil⟩
  obtain ⟨⟨hoffer, hsame⟩, hinstalls⟩ := hact
  -- asking writes the log of the staged file's launch check, which is not that file and no marker
  have hkept : ∀ offer path, m₁.state.offer = some offer → offer.staged = some path →
      ∀ p, p ≠ launchLog path → m₃.files p = m₁.files p := by
    intro offer path ho hs p hp
    refine hfiles p fun o' p' hsome => ?_
    obtain ⟨ho', hs'⟩ := hstaged hsome
    obtain rfl := Option.mem_unique ho' ho
    obtain rfl := Option.mem_unique hs' hs
    exact hp
  refine ⟨hok.kept (by rw [hoffer, hstate]) fun offer path ho hs => ?_, fun c hc path version hop => ?_⟩
  · rw [hsame, hkept offer path ho hs path ((hok.spared ho hs).2 offer path ho hs)]
  · have hnot : ∀ {op : IoOp}, op = .install path version → ¬ op.InstallsNothing := fun h => h ▸ id
    simp only [List.mem_cons, List.mem_append] at hc
    rcases hc with rfl | hc | hc | rfl | hc
    · exact nomatch hop
    · exact absurd (hfailing c hc) (hnot hop)
    · exact absurd (hasking c hc) (hnot hop)
    · exact nomatch hop
    · obtain ⟨hbefore, offer, hsome, hversion, hidle⟩ := hinstalls c hc path version hop
      obtain ⟨ho, hs⟩ := hstaged hsome
      rw [hbefore]
      refine ⟨offer, ho, hversion, hs, hkept offer path ho hs path ((hok.spared ho hs).2 offer path ho hs), fun htrigger => ?_⟩
      obtain ⟨hauto, hn₀, hfailed⟩ := hidle htrigger
      obtain ⟨-, hplaced, -⟩ := (hok offer ho).2 path hs
      refine ⟨by rw [hstate, hauto], hn₀, ?_⟩
      have hmarked : e.marker version ≠ launchLog path := (hplaced.launchLog.ne_marker version.toText).symm
      rw [hkept offer path ho hs _ hmarked, ← hversion]
      exact hmarker offer path hsome hfailed

/-! ## Histories -/

inductive Kind
  | check
  | consider (trigger : Trigger)

structure Entry where
  kind : Kind
  events : List IoCall

inductive Took (e : Engine) (w : World) : Entry → World → Prop
  | check {events : List IoCall} {t : World} (run : Runs (Interleaved e) (check e) w events () t) : Took e w ⟨.check, events⟩ t
  | consider {events : List IoCall} {t : World} (trigger : Trigger) (r : Except String Unit)
      (run : Runs e.Exact (consider trigger) w events r t) : Took e w ⟨.consider trigger, events⟩ t

/-- The checks and considerations of an engine so far, and what happened between them. -/
inductive Reaches (e : Engine) : List Entry → World → Prop
  | start (files : Files) (signedIn : Nat) : Reaches e [] ⟨files, {}, signedIn⟩
  | beside {history : List Entry} {w t : World} (reached : Reaches e history w) (step : Env e w t) : Reaches e history t
  | took {history : List Entry} {w t : World} {entry : Entry} (reached : Reaches e history w) (step : Took e w entry t) :
      Reaches e (history ++ [entry]) t

/-- One `fetchAndVerify` of a check of the history accepted the file. -/
def AcceptedIn (e : Engine) (history : List Entry) (version : Version) (path : PathBuf) (file : File) : Prop :=
  ∃ entry ∈ history, entry.kind = .check ∧ AcceptedAmong e entry.events version path file

theorem AcceptedIn.append {history : List Entry} {file : File}
    (h : AcceptedIn e history version path file) (entry : Entry) : AcceptedIn e (history ++ [entry]) version path file := by
  obtain ⟨earlier, hmem, h⟩ := h
  exact ⟨earlier, List.mem_append_left _ hmem, h⟩

theorem reaches_offerOk {history : List Entry} (h : Reaches e history w) : OfferOk e (AcceptedIn e history) w := by
  induction h with
  | start files signedIn => exact fun offer hoffer => absurd hoffer (by simp)
  | beside _ step ih => exact ih.env step
  | took _ step ih =>
    cases step with
    | check run =>
      refine (check_ok ih run).mono fun v p f h => ?_
      rcases h with h | h
      · exact h.append _
      · exact ⟨_, List.mem_append_right _ (List.mem_singleton_self _), rfl, h⟩
    | consider trigger r run => exact (consider_ok ih run).1.mono fun v p f h => h.append _

/-- Whatever happens in between, the engine installs only what one run of `fetchAndVerify` accepted, as that run left
it; by itself only with automatic installs on, nobody signed in and no failure recorded. -/
theorem only_verified_upgrades (e : Engine) {history : List Entry} {entry : Entry} {w t : World} {c : IoCall}
    {path : PathBuf} {version : Version} (reached : Reaches e history w) (step : Took e w entry t) (hc : c ∈ entry.events)
    (hop : c.op = .install path version) :
    (∃ file, c.before.files path = some file ∧ AcceptedIn e history version path file) ∧
      ∃ trigger, entry.kind = .consider trigger ∧
        (trigger = .idle → c.before.state.automatic = true ∧ c.before.signedIn = 0 ∧
          c.before.files (e.marker version) = none) := by
  cases step with
  | check run =>
    have := run.only (check_only e) c hc
    rw [hop] at this
    exact this.elim
  | consider trigger r run =>
    have hok := reaches_offerOk reached
    obtain ⟨offer, hoffer, rfl, hstaged, hfile, hidle⟩ := (consider_ok hok run).2 c hc path version hop
    obtain ⟨-, -, file, hthere, haccepted⟩ := (hok offer hoffer).2 path hstaged
    exact ⟨⟨file, hfile.trans hthere, haccepted⟩, trigger, rfl, hidle⟩

def Engine.answers (e : Engine) (signature : List UInt8) : (o : IoOp) → World → o.Answer × World
  | .latest _, w => (.ok (.release [] none), w)
  | .text _ most, w =>
    (.ok (if most = MAX_CHECKSUM_BYTES then (e.lib.sha256 []).hex ++ "  citadel-agent.AppImage"
      else String.ofList (hexChars signature)), w)
  | .download _ dest size, w => (.ok (), { w with files := Function.update w.files dest (some ⟨List.replicate size 0, 0o644⟩) })
  | .attestations _, w => (.ok [], w)
  | .verify _ _ _, w => (.verified, w)
  | .downloadPath version asset, w => (.ok ((e.versionDir version).join (osStr asset)), w)
  | .sha256 path, w =>
    match w.files path with
    | some f => (.ok (e.lib.sha256 f.bytes).hex, w)
    | none => (.error "not found", w)
  | .stage .macApp download, w => (.ok download, w)
  | .stage .appImage download, w =>
    match w.files download with
    | some f => (.ok download, { w with files := Function.update w.files download (some { f with mode := 0o755 }) })
    | none => (.error "not found", w)
  | .stage .tarball _, w => (.error "tar did not start", w)
  | .versionOf _, w => (.ok (versionLine ⟨0, 9, 0, "", ""⟩), w)
  | .failed version, w => ((w.files (e.marker version)).map fun _ => "", w)
  | .markFailed _ _, w | .discard _, w | .announce _, w => ((), w)
  | .canInstall _, w | .install _ _, w | .setAuto _, w => (.ok (), w)
  | .getAuto, w => (.ok none, w)
  | .signedIn, w => (w.signedIn, w)
  | .now, w => ((0 : Nat), w)
  | .read, w => (w.state, w)
  | .modify f, w => ((), { w with state := f w.state })
  | .noteFetched now fetched, w =>
    ((noteFetched e.lib now fetched w.state).1, { w with state := (noteFetched e.lib now fetched w.state).2 })

theorem answers_exact (e : Engine) (signature : List UInt8) (o : IoOp) (w : World) :
    e.Exact o w (e.answers signature o w).1 (e.answers signature o w).2 := by
  cases o with
  | download url dest size => exact ⟨_, List.length_replicate, rfl⟩
  | downloadPath version asset => exact ⟨fun path h => (Except.ok.inj h).symm, w.files, rfl, fun _ => .inl rfl⟩
  | sha256 path =>
    cases hfile : w.files path with
    | some f =>
      simp only [Engine.answers, hfile]
      exact ⟨rfl, fun text h => ⟨f, hfile, (Except.ok.inj h).symm⟩⟩
    | none =>
      simp only [Engine.answers, hfile]
      exact ⟨rfl, fun text h => nomatch h⟩
  | stage method download =>
    cases method with
    | macApp => exact ⟨rfl, rfl⟩
    | appImage =>
      cases hfile : w.files download with
      | some f =>
        simp only [Engine.answers, hfile]
        exact ⟨rfl, f, hfile, rfl⟩
      | none =>
        simp only [Engine.answers, hfile]
        exact rfl
    | tarball => exact ⟨w.files, rfl, fun _ _ => rfl, fun path h => nomatch h⟩
  | failed version => exact ⟨rfl, fun h => Option.map_eq_none_iff.mp h⟩
  | discard version => exact ⟨w.files, rfl, fun _ => .inl rfl⟩
  | markFailed version why => exact ⟨w.files, fun _ _ => rfl, rfl⟩
  | canInstall staged => exact ⟨w.files, fun _ _ => rfl, rfl⟩
  | signedIn => exact ⟨rfl, rfl⟩
  | read => exact ⟨rfl, rfl⟩
  | noteFetched now fetched => exact ⟨rfl, rfl⟩
  | _ => exact rfl

def releasedAppImage : Release where
  tagName := "agent-v0.9.0"
  draft := false
  prerelease := false
  assets := ["citadel-agent.AppImage", "citadel-agent.AppImage.mldsa.sig", "citadel-agent.AppImage.sha256"].map fun name =>
    ⟨name, s!"{DOWNLOAD_PREFIX}agent-v0.9.0/{name}", 0⟩

def zeroDigest : Sha256 := ⟨List.replicate 32 0, rfl⟩

def appImageEngine (key : List UInt8) : Engine where
  current := ⟨0, 8, 8, "", ""⟩
  plan := .apply "citadel-agent.AppImage" .appImage
  releaseKey := String.ofList (hexChars key)
  root := ⟨true, [.normal (osStr "updates")]⟩
  lib := ⟨⟨fun _ => true, fun _ _ _ => true⟩, fun _ => zeroDigest, fun _ => .ok releasedAppImage, fun _ => none⟩

theorem exec_callAs {handle : (o : IoOp) → World → o.Answer × World} {α β : Type} {x : Io (Except String α)} {a : α}
    {g : α → Step β} (h : Prog.run handle x w = (.ok a, t)) :
    Prog.exec handle (callAs f x >>= g) w = Prog.exec handle (g a) t := by
  have hx : Prog.exec handle (callAs f x) w = (.ok a, t) := by
    have hlift : (callAs f x).run = x >>= fun r => (failAs f r).run := by
      rw [callAs, ExceptT.run_bind]
      exact Prog.andThen_assoc x _ _
    rw [Prog.exec, hlift, Prog.run_bind, h]
    rfl
  rw [Prog.exec_bind, hx, Prog.resume_ok]

theorem exec_failAs {handle : (o : IoOp) → World → o.Answer × World} {α β : Type} {r : Except String α} {a : α} {g : α → Step β}
    (h : r = .ok a) :
    Prog.exec handle (failAs f r >>= g) w = Prog.exec handle (g a) w := by
  rw [h]
  rfl

theorem exec_ofExcept {handle : (o : IoOp) → World → o.Answer × World} {α β : Type} {r : Except Refusal α} {a : α}
    {g : α → Step β} (h : r = .ok a) : Prog.exec handle (Prog.ofExcept r >>= g) w = Prog.exec handle (g a) w := by
  rw [h]
  rfl

theorem exec_settle {handle : (o : IoOp) → World → o.Answer × World} {β : Type} {verdict : Verdict} {g : Unit → Step β}
    (h : verdict = .accept) : Prog.exec handle (settle verdict >>= g) w = Prog.exec handle (g ()) w := by
  rw [h]
  rfl

variable {key signature : List UInt8}

theorem appImage_signed (hkey : key.length = PUBLIC_KEY_LEN) (hsignature : signature.length = SIGNATURE_LEN) (digest : Sha256) :
    checkSignature (appImageEngine key).lib.mlDsa (appImageEngine key).releaseKey releasedAppImage.tagName
      "citadel-agent.AppImage" digest.hex (some (String.ofList (hexChars signature))) = .verified := by
  rw [checkSignature, sha256FromHex_hex, Result.ok_bind, verify, appImageEngine, parsePublicKey_hexChars key hkey,
    Result.ok_bind, signedMessage, show badField "tag" releasedAppImage.tagName = none by decide +kernel,
    show badField "asset name" "citadel-agent.AppImage" = none by decide +kernel, Result.ok_bind,
    String.toList_ofList, trim_hexChars, decodeExact_hexChars SIGNATURE_LEN signature hsignature]
  rfl

def appImagePath : PathBuf := ⟨true, [.normal (osStr "updates"), .normal (osStr "0.9.0"), .normal (osStr "citadel-agent.AppImage")]⟩

theorem appImage_fetched (hkey : key.length = PUBLIC_KEY_LEN) (hsignature : signature.length = SIGNATURE_LEN) (w : World) :
    Prog.exec ((appImageEngine key).answers signature)
      (fetchAndVerify (appImageEngine key) releasedAppImage ⟨0, 9, 0, "", ""⟩ "citadel-agent.AppImage" .appImage) w =
        (.ok appImagePath, ⟨Function.update (Function.update w.files appImagePath (some ⟨[], 0o644⟩)) appImagePath
          (some ⟨[], 0o755⟩), w.state, w.signedIn⟩) := by
  have hsum : expectedSha256 (zeroDigest.hex ++ "  citadel-agent.AppImage") "citadel-agent.AppImage" = .ok zeroDigest.hex := by
    decide +kernel
  have hassets : assetsOf releasedAppImage "citadel-agent.AppImage" = .ok
    (⟨"citadel-agent.AppImage", s!"{DOWNLOAD_PREFIX}agent-v0.9.0/citadel-agent.AppImage", 0⟩,
      ⟨"citadel-agent.AppImage.mldsa.sig", s!"{DOWNLOAD_PREFIX}agent-v0.9.0/citadel-agent.AppImage.mldsa.sig", 0⟩,
      ⟨"citadel-agent.AppImage.sha256", s!"{DOWNLOAD_PREFIX}agent-v0.9.0/citadel-agent.AppImage.sha256", 0⟩) := by decide +kernel
  refine (exec_ofExcept hassets).trans ?_
  refine (exec_callAs rfl).trans ?_
  refine (exec_failAs hsum).trans ?_
  refine (exec_callAs (a := String.ofList (hexChars signature)) rfl).trans ?_
  refine (exec_callAs (a := appImagePath) rfl).trans ?_
  refine (exec_callAs rfl).trans ?_
  refine (exec_callAs (a := zeroDigest.hex) rfl).trans ?_
  dsimp only
  rw [appImage_signed hkey hsignature, show (Decidable.decide (ReleaseSignature.verified = .verified) &&
    eqIgnoreCase zeroDigest.hex zeroDigest.hex) = true by decide +kernel, consult, if_pos rfl, bind_assoc]
  refine (exec_callAs rfl).trans ?_
  show Prog.exec _ (settle (judgeDownload _ _ _ _ _ .verified _) >>= _) _ = _
  have haccept : judgeDownload ⟨0, 8, 8, "", ""⟩ ⟨0, 9, 0, "", ""⟩ .verified zeroDigest.hex zeroDigest.hex .verified .appImage =
    .accept := by decide +kernel
  refine (exec_settle haccept).trans ?_
  refine (exec_callAs (a := appImagePath) rfl).trans ?_
  show Prog.exec _ (settle (judgeStaged _ (some _) _) >>= _) _ = _
  exact exec_settle (by decide +kernel)

def freshlyStarted : World := ⟨fun _ => none, {}, 0⟩

def appImageOffer : Offer where
  version := ⟨0, 9, 0, "", ""⟩
  notesUrl := notesUrl releasedAppImage
  downloadUrl := link releasedAppImage (some "citadel-agent.AppImage")
  staged := some appImagePath
  settled := true

def appImageFiles : Files :=
  Function.update (Function.update (fun _ => none) appImagePath (some ⟨[], 0o644⟩)) appImagePath (some ⟨[], 0o755⟩)

def appImageWorld : World :=
  ⟨appImageFiles, { release := some releasedAppImage, offer := some appImageOffer, lastChecked := some 0 }, 0⟩

theorem appImage_checked (hkey : key.length = PUBLIC_KEY_LEN) (hsignature : signature.length = SIGNATURE_LEN) :
    Prog.run ((appImageEngine key).answers signature) (check (appImageEngine key)) freshlyStarted = ((), appImageWorld) := by
  have hcandidate : candidate releasedAppImage ⟨0, 8, 8, "", ""⟩ = .upgrade ⟨0, 9, 0, "", ""⟩ := by decide +kernel
  have hprepare : Prog.run ((appImageEngine key).answers signature)
      (prepare (appImageEngine key) releasedAppImage ⟨0, 9, 0, "", ""⟩)
      ⟨fun _ => none, { release := some releasedAppImage, lastChecked := some 0 }, 0⟩ =
        (appImageOffer, ⟨appImageFiles, { release := some releasedAppImage, lastChecked := some 0 }, 0⟩) := by
    refine (Prog.run_bind ..).trans ?_
    rw [show Prog.run _ (ExceptT.run _) _ = _ from appImage_fetched hkey hsignature _]
    rfl
  have hmarker : appImageFiles ((appImageEngine key).marker ⟨0, 9, 0, "", ""⟩) = none := by
    show appImageFiles (failedMarker ⟨true, [.normal (osStr "updates")]⟩ (Version.toText ⟨0, 9, 0, "", ""⟩)) = none
    decide +kernel
  have hreleased : (Prog.run ((appImageEngine key).answers signature) (check (appImageEngine key)) freshlyStarted) =
      Prog.run ((appImageEngine key).answers signature) (weigh (appImageEngine key) releasedAppImage)
      ⟨fun _ => none, { release := some releasedAppImage, lastChecked := some 0 }, 0⟩ := by
    refine (Prog.run_op_bind ..).trans ((Prog.run_op_bind ..).trans ((Prog.run_op_bind ..).trans ((Prog.run_op_bind ..).trans ?_)))
    exact congrArg₂ (Prog.run _) rfl rfl
  have hweigh : weigh (appImageEngine key) releasedAppImage =
      offerFor (appImageEngine key) releasedAppImage ⟨0, 9, 0, "", ""⟩ >>= tell (appImageEngine key) := by
    rw [weigh, show (appImageEngine key).current = ⟨0, 8, 8, "", ""⟩ from rfl, hcandidate]
  have hoffer : Prog.run ((appImageEngine key).answers signature)
      (offerFor (appImageEngine key) releasedAppImage ⟨0, 9, 0, "", ""⟩)
      ⟨fun _ => none, { release := some releasedAppImage, lastChecked := some 0 }, 0⟩ =
      (appImageOffer, appImageWorld) := by
    exact (Prog.run_op_bind ..).trans ((Prog.run_bind_of _ hprepare).trans rfl)
  have hfailure : ∀ state, Prog.run ((appImageEngine key).answers signature) (noteFailure ⟨0, 9, 0, "", ""⟩) ⟨appImageFiles, state, 0⟩ =
      ((), ⟨appImageFiles, state, 0⟩) := by
    intro state
    refine (Prog.run_op_bind ..).trans ?_
    rw [show ((appImageEngine key).answers signature (.failed ⟨0, 9, 0, "", ""⟩) ⟨appImageFiles, state, 0⟩) =
      (Option.map (fun _ => "") (appImageFiles ((appImageEngine key).marker ⟨0, 9, 0, "", ""⟩)), ⟨appImageFiles, state, 0⟩) from rfl,
      hmarker]
    rfl
  rw [hreleased, hweigh, Prog.run_bind_of _ hoffer]
  exact (Prog.run_bind_of _ (hfailure _)).trans rfl

def IoOp.installing : IoOp → Option (PathBuf × Version)
  | .install path version => some (path, version)
  | _ => none

theorem IoOp.installing_eq {o : IoOp} (h : o.installing = some (path, version)) :
    o = .install path version := by
  cases o with
  | install p v =>
    obtain ⟨rfl, rfl⟩ := Prod.mk.inj (Option.some.inj h)
    rfl
  | _ => exact nomatch h

theorem only_verified_upgrades_appImage :
    let e := appImageEngine (List.replicate PUBLIC_KEY_LEN 0)
    ∃ (history : List Entry) (entry : Entry) (c : IoCall), c ∈ entry.events ∧ c.op = .install appImagePath ⟨0, 9, 0, "", ""⟩ ∧
      (∃ file, c.before.files appImagePath = some file ∧ AcceptedIn e history ⟨0, 9, 0, "", ""⟩ appImagePath file) ∧
      ∃ trigger, entry.kind = .consider trigger ∧
        (trigger = .idle → c.before.state.automatic = true ∧ c.before.signedIn = 0 ∧
          c.before.files (e.marker ⟨0, 9, 0, "", ""⟩) = none) := by
  intro e
  have hinstalls : some (appImagePath, ⟨0, 9, 0, "", ""⟩) ∈
      (Prog.trace ((appImageEngine (List.replicate PUBLIC_KEY_LEN 0)).answers (List.replicate SIGNATURE_LEN 0)) (consider .idle)
        appImageWorld).map fun c => c.op.installing := by decide +kernel
  obtain ⟨c, hc, hop⟩ := List.mem_map.mp hinstalls
  have hchecked := Prog.runs_trace (answers_exact e (List.replicate SIGNATURE_LEN 0)) (check e) freshlyStarted
  rw [show Prog.run _ (check e) freshlyStarted = ((), appImageWorld) from
    appImage_checked List.length_replicate List.length_replicate] at hchecked
  have reached := Reaches.took (.start (fun _ => none) 0)
    (.check (hchecked.mono fun o s answer t h => (⟨s, .refl, h⟩ : Interleaved e o s answer t)))
  have hconsidered := Prog.runs_trace (answers_exact e (List.replicate SIGNATURE_LEN 0)) (consider .idle) appImageWorld
  exact ⟨_, ⟨.consider .idle, _⟩, c, hc, IoOp.installing_eq hop,
    only_verified_upgrades e reached (.consider .idle _ hconsidered) hc (IoOp.installing_eq hop)⟩

end CitadelAgent.Updater
