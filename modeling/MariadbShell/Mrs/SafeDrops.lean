import MariadbShell.Mrs.SchemaDeployment

/-!
# When the schema is dropped

A deployment drops the schema once at most, in the handler of its errors. The handler does
not know whether the script or the removal of the backup after it failed: if it was the
removal, then the updated schema is dropped and the backup may be gone.
-/

namespace MariadbShell.Mrs

open ImportTable (Bytes)
open Lib
open Attempt Triple DumpSchemaBackup

/-- A drop that loses nothing: the script has not completed, and a schema that existed before
the deployment has a complete backup. -/
def Drop.Safe (before : Schema) (drop : Drop) : Prop :=
  drop.scriptDone = false ∧ (before ≠ .absent → drop.backup = .complete)

instance (before : Schema) (drop : Drop) : Decidable (drop.Safe before) :=
  inferInstanceAs (Decidable (_ ∧ _))

def Deployment.Begun (schema : Schema) (state : Deployment) : Prop :=
  state.schema = schema ∧ state.scriptDone = false ∧ state.drops = []

/-- The state before `deploy`, with any members of the backup. -/
def Deployment.begin (state : Deployment) : Deployment :=
  { state with scriptDone := false, drops := [] }

theorem Deployment.begun_begin (state : Deployment) : state.begin.Begun state.schema :=
  ⟨rfl, rfl, rfl⟩

/-- A statement on the parts of the state that the backup options and the log are not. -/
def Deployment.Holds (kept : Schema → Bool → List Drop → Directory → Prop)
    (state : Deployment) : Prop :=
  kept state.schema state.scriptDone state.drops state.directory

section Log

variable {Value : Type} {pre : Deployment → Prop} {post : Value → Deployment → Prop}
  {fails : Bytes → Deployment → Prop}

theorem log_bind {type : String} {text : List Bytes} {next : Unit → Deploy Value}
    (stable : ∀ state messages, pre state → pre { state with messages := messages })
    (rest : Triple pre (next ()) post fails) : Triple pre (log type text >>= next) post fails :=
  modify_bind (fun state => stable state _) rest

theorem fail_triple {text : List Bytes}
    (raised : ∀ state messages, pre state → fails text.flatten
      { state with messages := messages }) :
    Triple pre (fail text : Deploy Value) post fails :=
  fun state holds => raised state _ holds

/-- A step whose error is logged and raised. -/
theorem check_bind {Other : Type} {known : Except Bytes Other} {next : Other → Deploy Value}
    (ok : ∀ value, known = .ok value → Triple pre (next value) post fails)
    (error : ∀ error, known = .error error → ∀ state messages, pre state →
      fails [error].flatten { state with messages := messages }) :
    Triple pre (Attempt.handle (lift known) (fun error => fail [error]) >>= next) post fails := by
  cases known with
  | ok value => exact ok value rfl
  | error raised => exact fun state holds => error raised rfl state _ holds

end Log

namespace ScriptDeployer

variable (setup : Setup) (steps : Steps)

/-! ## The checks -/

/-- The schema exists, is managed and has a version. -/
structure Found (schema : Schema) (current : Version) : Prop where
  query : steps.schemaQuery = .ok ()
  present : schema ≠ .absent
  managed : steps.managed = .ok true
  version : steps.version = .ok current

def Updatable (text : Bytes) (current : Version) : Prop :=
  current ≠ schemaVersion ∧
    ∃ procedures, steps.procedures text = .ok procedures ∧ current ∈ updatableVersions procedures

/-- The checks pass and an existing schema is to be updated. -/
def Planned (schema : Schema) (script : Bytes) (current : Version) : Prop :=
  (∃ text, steps.script = some text ∧ steps.substitute text = .ok script ∧
    Updatable steps text current) ∧ steps.lock = .ok () ∧ Found steps schema current

theorem currentVersion_triple (schema : Schema) :
    Triple (Deployment.Begun schema) (currentVersion setup steps)
      (fun found state => state.Begun schema ∧
        (∀ current, found = some current ↔ Found steps schema current) ∧
        (found = none → schema = .absent))
      (fun _ state => state.Begun schema ∧ ∀ current, ¬ Found steps schema current) := by
  refine lift_bind (fun _ query => ?_) fun error query state begun =>
    ⟨begun, fun current found => nomatch query.symm.trans found.query⟩
  refine get_bind fun seen begun => ?_
  obtain ⟨same, -, -⟩ := begun
  rw [same]
  split
  · next absent =>
    exact value fun state holds =>
      ⟨holds.2, fun current => ⟨nofun, fun found => (found.present absent).elim⟩, fun _ => absent⟩
  · next present =>
    refine lift_bind (fun managed known => ?_) fun error known state holds =>
      ⟨holds.2, fun current found => nomatch known.symm.trans found.managed⟩
    cases managed with
    | true =>
      refine lift_bind (fun version read => ?_) fun error read state holds =>
        ⟨holds.2, fun current found => nomatch read.symm.trans found.version⟩
      refine value fun state holds => ⟨holds.2, fun current => ⟨?_, ?_⟩, nofun⟩
      · rintro ⟨⟩
        exact ⟨query, present, known, read⟩
      · intro found
        simpa [read] using found.version
    | false =>
      exact fail_triple fun state messages holds =>
        ⟨holds.2, fun current found => nomatch known.symm.trans found.managed⟩

theorem planUpdate_triple (schema : Schema) (text script : Bytes) (current : Version) :
    Triple (Deployment.Begun schema) (planUpdate setup steps text script current)
      (fun plan state => state.Begun schema ∧
        (plan = .run script (some current) ∧ Updatable steps text current ∨
          (∃ info, plan = .unchanged info) ∧ ¬ Updatable steps text current))
      (fun _ state => state.Begun schema ∧ ¬ Updatable steps text current) := by
  unfold planUpdate
  split
  · next done =>
    exact log_bind (fun _ _ begun => begun) <| value fun state begun =>
      ⟨begun, .inr ⟨⟨_, rfl⟩, fun updatable => updatable.1 done⟩⟩
  · next outdated =>
    refine lift_bind (fun procedures known => ?_) fun error known state begun =>
      ⟨begun, fun ⟨_, _, other, _⟩ => nomatch known.symm.trans other⟩
    have exact_ : Updatable steps text current ↔ current ∈ updatableVersions procedures := by
      simp [Updatable, outdated, known]
    rw [exact_]
    dsimp only
    split
    · next last newest =>
      obtain ⟨final, newer⟩ := Option.filter_eq_some_iff.mp newest
      refine log_bind (fun _ _ begun => begun) <| value fun state begun =>
        ⟨begun, .inr ⟨⟨_, rfl⟩, fun member => ?_⟩⟩
      simp [le_getLast_updatableVersions member final] at newer
    · split
      · next member => exact value fun state begun => ⟨begun, .inl ⟨rfl, member⟩⟩
      · next missing => exact fail_triple fun state messages begun => ⟨begun, missing⟩

/-- The plan is an update if and only if the checks say so. -/
theorem plan_triple (schema : Schema) :
    Triple (Deployment.Begun schema) (plan setup steps)
      (fun plan state => state.Begun schema ∧
        (∀ script current,
          plan = .run script (some current) ↔ Planned steps schema script current) ∧
        ∀ script, plan = .run script none → schema = .absent)
      (fun _ state => state.Begun schema ∧
        ∀ script current, ¬ Planned steps schema script current) := by
  unfold plan
  split
  · next missing =>
    exact fail_triple fun state messages begun =>
      ⟨begun, fun _ _ ⟨⟨_, read, _⟩, _⟩ => nomatch missing.symm.trans read⟩
  · next text read =>
    have planned_iff : ∀ script current, Planned steps schema script current ↔
        (steps.substitute text = .ok script ∧ Updatable steps text current) ∧
          steps.lock = .ok () ∧ Found steps schema current := by
      simp [Planned, read]
    simp only [planned_iff]
    refine check_bind (fun script substituted => ?_) fun error failed state messages begun =>
      ⟨begun, fun _ _ planned => nomatch failed.symm.trans planned.1.1⟩
    refine check_bind (fun _ locked => ?_) fun error failed state messages begun =>
      ⟨begun, fun _ _ planned => nomatch failed.symm.trans planned.2.1⟩
    refine bind ((currentVersion_triple setup steps schema).weaken (fun _ begun => begun)
      (fun _ _ found => found) fun _ state missing =>
        ⟨missing.1, fun _ current planned => missing.2 current planned.2.2⟩) fun found => ?_
    cases found with
    | none =>
      exact value fun state holds => ⟨holds.1,
        fun script current => ⟨nofun, fun planned =>
          nomatch (holds.2.1 current).mpr planned.2.2⟩,
        fun _ _ => holds.2.2 rfl⟩
    | some version =>
      rintro state ⟨begun, found, -⟩
      have unique : ∀ current, Found steps schema current ↔ version = current := by
        simp [← found]
      simp only [unique, substituted, locked, true_and]
      refine (planUpdate_triple setup steps schema text script version).weaken
        (fun _ begun => begun) ?_ ?_ state begun
      · rintro plan later ⟨kept, ⟨rfl, updatable⟩ | ⟨⟨info, rfl⟩, outdated⟩⟩
        · exact ⟨kept, by grind, nofun⟩
        · exact ⟨kept, by grind, nofun⟩
      · rintro error later ⟨kept, outdated⟩
        exact ⟨kept, by grind⟩

/-! ## The backup -/

structure Dumped : Prop where
  dataPath : steps.dataPath = .ok ()
  createDirectory : steps.createDirectory = .ok ()
  localInfile : steps.localInfile = .ok true ∨
    steps.localInfile = .ok false ∧ steps.enableLocalInfile = .ok ()
  dump : steps.dump = .ok ()

theorem enableLocalInfile_triple (original : Bool) (schema : Schema) :
    Triple (Deployment.Begun schema) (enableLocalInfile steps original)
      (fun _ state => state.Begun schema ∧
        (original = true ∨ original = false ∧ steps.enableLocalInfile = .ok ()))
      (fun _ state => state.Begun schema ∧ original = false ∧
        steps.enableLocalInfile ≠ .ok ()) := by
  cases original with
  | true => exact value fun state begun => ⟨begun, .inl rfl⟩
  | false =>
    refine handle (log_bind (fun _ _ begun => begun) (lift_bind
      (fun _ enabled => modify fun state begun => ⟨begun, .inr ⟨rfl, enabled⟩⟩)
      fun error failed state begun => ?_)) fun error => raise fun state raised => raised
    exact ⟨begun, rfl, fun enabled => nomatch failed.symm.trans enabled⟩

theorem create_triple (name : Bytes) (version : Version) (schema : Schema) :
    Triple (Deployment.Begun schema) (create steps name version)
      (fun _ state => state.Begun schema ∧ state.directory = .complete ∧ Dumped steps)
      (fun _ state => state.Begun schema ∧ ¬ Dumped steps) := by
  refine lift_bind (fun _ dataPath => ?_) fun error failed state begun =>
    ⟨begun, fun dumped => nomatch failed.symm.trans dumped.dataPath⟩
  refine modify_bind (fun _ begun => begun) ?_
  refine lift_bind (fun _ created => ?_) fun error failed state begun =>
    ⟨begun, fun dumped => nomatch failed.symm.trans dumped.createDirectory⟩
  refine modify_bind (fun _ begun => begun) ?_
  refine lift_bind (fun original known => ?_) fun error failed state begun =>
    ⟨begun, fun dumped => ?_⟩
  · refine modify_bind (fun _ begun => begun) ?_
    refine bind ((enableLocalInfile_triple steps original schema).weaken
      (fun _ begun => begun) (fun _ _ enabled => enabled) ?_) fun _ => ?_
    · rintro error state ⟨begun, rfl, failed⟩
      refine ⟨begun, fun dumped => ?_⟩
      rcases dumped.localInfile with read | ⟨-, enabled⟩
      · exact nomatch known.symm.trans read
      · exact failed enabled
    · rintro state ⟨begun, enabled⟩
      refine (log_bind (fun _ _ begun => begun) <| lift_bind (fun _ dumped =>
        modify fun state begun => ⟨begun, rfl, dataPath, created, ?_, dumped⟩)
          fun error failed state begun =>
            ⟨begun, fun dumped => nomatch failed.symm.trans dumped.dump⟩ :
        Triple (Deployment.Begun schema) _ _ _) state begun
      rcases enabled with rfl | ⟨rfl, enabled⟩
      · exact .inl known
      · exact .inr ⟨known, enabled⟩
  · rcases dumped.localInfile with read | ⟨read, -⟩ <;> exact nomatch failed.symm.trans read

/-- Whether the option can be set back or not, only the option and the log change. -/
theorem resetLocalInfile_triple (kept : Schema → Bool → List Drop → Directory → Prop) :
    Triple (Deployment.Holds kept) (resetLocalInfile steps)
      (fun _ => Deployment.Holds kept) (fun _ _ => False) := by
  refine get_bind fun seen _ => ?_
  split
  · rintro state ⟨-, holds⟩
    cases steps.disableLocalInfile with
    | ok _ => exact holds
    | error _ => exact holds
  · exact value fun state both => both.2

/-- The action removes the folder or fails as the removal does, and keeps everything else. -/
def Removes (removal : Removal) (kept : Schema → Bool → List Drop → Prop) (exists_ : Prop)
    (action : Deploy Unit) : Prop :=
  Triple
    (Deployment.Holds fun schema done drops directory =>
      kept schema done drops ∧ (exists_ → directory ≠ .absent))
    action
    (fun _ => Deployment.Holds fun schema done drops _ =>
      kept schema done drops ∧ (exists_ → removal = .removed))
    (fun _ => Deployment.Holds fun schema done drops _ =>
      kept schema done drops ∧ ∃ error left, removal = .failed error left)

theorem removeDirectory_triple (removal : Removal) (kept : Schema → Bool → List Drop → Prop)
    (exists_ : Prop) : Removes removal kept exists_ (removeDirectory removal) := by
  refine get_bind fun seen before => ?_
  split
  · next absent =>
    exact value fun state both => ⟨both.2.1, fun found => (before.2 found absent).elim⟩
  · cases removal with
    | removed => exact modify fun state both => ⟨both.2.1, fun _ => rfl⟩
    | failed error left => exact fun state both => ⟨both.2.1, _, _, rfl⟩

/-- If the folder exists, then `discard` fails if and only if the folder cannot be removed. -/
theorem discard_triple (removal : Removal)
    (kept : Schema → Bool → List Drop → Prop) (exists_ : Prop) :
    Removes removal kept exists_ (discard steps removal) :=
  bind ((resetLocalInfile_triple steps _).weaken (fun _ holds => holds)
    (fun _ _ holds => holds) fun _ _ => False.elim) fun _ =>
      removeDirectory_triple removal kept exists_

def Backed (backup : Bool) (current : Option Version) : Prop :=
  (backup = true ∧ setup.hasBackup = true ∧ current.isSome) ∧ Dumped steps

theorem backUp_triple (backup : Bool) (current : Option Version) (schema : Schema) :
    Triple (Deployment.Begun schema) (backUp setup steps backup current)
      (fun available state => state.Begun schema ∧
        (available = true → state.directory = .complete) ∧
        (available = true ↔ Backed setup steps backup current))
      (fun _ state => state.Begun schema ∧ ¬ Backed setup steps backup current) := by
  cases current with
  | none => exact value fun state begun => ⟨begun, nofun, nofun, fun backed => by
      simp [Backed] at backed⟩
  | some version =>
    simp only [backUp, Bool.and_eq_true]
    split
    · next wanted =>
      refine log_bind (fun _ _ begun => begun) ?_
      refine bind (handle (create_triple steps setup.name version schema) ?_)
        fun _ => value fun state created => ⟨created.1, fun _ => created.2.1, fun _ =>
            ⟨⟨wanted.1, wanted.2, rfl⟩, created.2.2⟩, fun _ => rfl⟩
      intro error
      refine bind (handle ((discard_triple steps steps.discardIncomplete
        (fun before done drops => (before = schema ∧ done = false ∧ drops = []) ∧
          ¬ Dumped steps) False).weaken
          (fun _ raised => ⟨raised, nofun⟩) (fun _ _ discarded => discarded.1)
          (fun _ _ failed => failed.1)) fun _ => value fun _ kept => kept) fun _ => ?_
      exact fail_triple fun state messages raised => ⟨raised.1, fun backed => raised.2 backed.2⟩
    · next unwanted =>
      exact value fun state begun => ⟨begun, nofun, nofun, fun backed =>
        (unwanted ⟨backed.1.1, backed.1.2.1⟩).elim⟩

/-! ## The script and the handler -/

def FailsLate (script : Bytes) (available : Bool) : Prop :=
  available = true ∧ steps.execute script = .ok () ∧
    ∃ error left, steps.discardDone = .failed error left

/-- What the handler finds: a script that failed with the backup still there, or a late
failure. -/
def Broken (script : Bytes) (available done : Bool) (directory : Directory) :
    Prop :=
  done = false ∧ (available = true → directory = .complete) ∧ ¬ FailsLate steps script available ∨
    done = true ∧ FailsLate steps script available

theorem discardBackup_triple (script : Bytes) (available : Bool)
    (executed : steps.execute script = .ok ()) :
    Triple
      (Deployment.Holds fun _ done drops directory =>
        (done = true ∧ drops = []) ∧ (available = true → directory ≠ .absent))
      (discardBackup steps available)
      (fun _ state => state.drops = [] ∧ ¬ FailsLate steps script available)
      (fun _ state => state.drops = [] ∧
        Broken steps script available state.scriptDone state.directory) := by
  cases available with
  | false => exact value fun state holds => ⟨holds.1.2, nofun⟩
  | true =>
    refine (discard_triple steps steps.discardDone
      (fun _ done drops => done = true ∧ drops = []) True).weaken
      (fun state holds => ⟨holds.1, fun _ => holds.2 rfl⟩) ?_ ?_
    · rintro _ state ⟨kept, removed⟩
      refine ⟨kept.2, fun ⟨_, _, error, left, failed⟩ => ?_⟩
      exact nomatch failed.symm.trans (removed trivial)
    · exact fun _ state ⟨kept, failed⟩ => ⟨kept.2, .inr ⟨kept.1, rfl, executed, failed⟩⟩

theorem executeScript_triple (script : Bytes) (available : Bool) (schema : Schema) :
    Triple (fun state => state.Begun schema ∧ (available = true → state.directory = .complete))
      (executeScript steps script)
      (fun _ state => steps.execute script = .ok () ∧
        state.Holds fun _ done drops directory =>
          (done = true ∧ drops = []) ∧ (available = true → directory ≠ .absent))
      (fun _ state => state.drops = [] ∧
        Broken steps script available state.scriptDone state.directory) := by
  rintro state ⟨⟨-, fresh, none⟩, complete⟩
  unfold executeScript
  cases executed : steps.execute script with
  | ok _ => exact ⟨rfl, ⟨rfl, none⟩, fun given => by simp [complete given]⟩
  | error raised =>
    exact ⟨none, .inl ⟨fresh, complete, fun late => nomatch executed.symm.trans late.2.1⟩⟩

theorem runScript_triple (script : Bytes)
    (current : Option Version) (available : Bool) (schema : Schema) :
    Triple (fun state => state.Begun schema ∧ (available = true → state.directory = .complete))
      (runScript setup steps script current available)
      (fun _ state => state.drops = [] ∧ ¬ FailsLate steps script available)
      (fun _ state => state.drops = [] ∧
        Broken steps script available state.scriptDone state.directory) := by
  refine log_bind (fun _ _ ready => ready) ?_
  refine bind (handle (executeScript_triple steps script available schema)
    fun error => log_bind (fun _ _ broken => broken) (raise fun _ broken => broken))
    fun _ => ?_
  refine log_bind (fun _ _ done => done) (log_bind (fun _ _ done => done) ?_)
  rintro state ⟨executed, done⟩
  exact bind (discardBackup_triple steps script available executed)
    (fun _ => value fun _ kept => kept) state done

/-- The handler drops the schema as it found it, or does not drop it. -/
def Handled (current : Option Version) (available : Bool)
    (found : Bool → Directory → Prop) (drops : List Drop) : Prop :=
  (∃ drop, drops = [drop] ∧ found drop.scriptDone drop.backup) ∧ steps.drop = .ok () ∧
      (available = true ∨ current = none) ∨
    drops = [] ∧ ¬ (steps.drop = .ok () ∧ (available = true ∨ current = none))

theorem dropBroken_triple (current : Option Version) (available : Bool)
    (found : Bool → Directory → Prop) :
    Triple (fun state => state.drops = [] ∧ found state.scriptDone state.directory)
      (dropBroken steps current available)
      (fun _ state => Handled steps current available found state.drops) (fun _ _ => False) := by
  simp only [dropBroken, Bool.or_eq_true, Option.isNone_iff_eq_none]
  split
  · next wanted =>
    refine handle (lift_bind (fun _ ended => modify ?_)
      fun _ ended => ?_) fun _ => value fun _ handled => handled
    · rintro state ⟨nothing, holds⟩
      exact .inl ⟨⟨_, by rw [nothing]; rfl, holds⟩, ended, wanted⟩
    · rintro state ⟨nothing, -⟩
      exact .inr ⟨nothing, fun both => nomatch ended.symm.trans both.1⟩
  · next unwanted =>
    exact value fun state holds => .inr ⟨holds.1, fun both => unwanted both.2⟩

theorem report_triple (available : Bool) (error : Bytes)
    (current : Option Version) (kept : List Drop → Prop) :
    Triple (fun state => kept state.drops) (report setup steps available error current)
      (fun _ _ => False) (fun _ state => kept state.drops) := by
  cases current with
  | none => exact fail_triple fun _ _ holds => holds
  | some version =>
    simp only [report]
    split
    · refine bind (handle (bind (lift_bind (fun _ _ =>
        modify fun _ holds => holds) fun _ _ _ holds => holds) fun _ =>
          ((discard_triple steps steps.discardRestored (fun _ _ drops => kept drops) False).weaken
            (fun _ holds => ⟨holds, nofun⟩) (fun _ _ discarded => discarded.1)
            (fun _ _ failed => failed.1))) fun _ => fail_triple fun _ _ holds => holds)
          fun _ => fail_triple fun _ _ holds => holds
    · exact fail_triple fun _ _ holds => holds

/-! ## The deployment -/

/-- An update whose script completes, whose backup cannot be removed and whose schema is then
dropped. -/
def DropsUpdated (backup : Bool) (schema : Schema) : Prop :=
  ∃ script current, Planned steps schema script current ∧
    Backed setup steps backup (some current) ∧ FailsLate steps script true ∧
    steps.drop = .ok ()

theorem dropsUpdated_iff {setup : Setup} {steps : Steps} {backup : Bool} {schema : Schema}
    {script : Bytes} {current : Option Version}
    (planned : ∀ other version, Plan.run script current = .run other (some version) ↔
      Planned steps schema other version) :
    DropsUpdated setup steps backup schema ↔ Backed setup steps backup current ∧
      FailsLate steps script true ∧ steps.drop = .ok () := by
  constructor
  · rintro ⟨other, version, updates, rest⟩
    cases (planned other version).mpr updates
    exact rest
  · rintro ⟨backed, rest⟩
    cases current with
    | none => simp [Backed] at backed
    | some version => exact ⟨script, version, (planned script version).mp rfl, backed, rest⟩

/-- The drops of the handler are safe unless the failure was a late one. -/
theorem safe_iff_of_handled {setup : Setup} {steps : Steps} {backup available : Bool}
    {schema : Schema} {script : Bytes} {current : Option Version} {drops : List Drop}
    (created : current = none → schema = .absent)
    (backed : available = true ↔ Backed setup steps backup current)
    (handled : Handled steps current available (Broken steps script available) drops) :
    (∀ drop ∈ drops, drop.Safe schema) ↔ ¬ (Backed setup steps backup current ∧
      FailsLate steps script true ∧ steps.drop = .ok ()) := by
  rw [← backed]
  rcases handled with ⟨⟨drop, rfl, broken⟩, dropped, wanted⟩ | ⟨rfl, kept⟩
  · rw [List.forall_mem_singleton]
    rcases broken with ⟨fresh, complete, early⟩ | ⟨done, late⟩
    · refine iff_of_true ⟨fresh, fun present => ?_⟩ ?_
      · rcases wanted with given | none
        · exact complete given
        · exact (present (created none)).elim
      · rintro ⟨rfl, late, -⟩
        exact early late
    · obtain rfl : available = true := late.1
      exact iff_of_false (fun safe => nomatch done.symm.trans safe.1)
        (not_not.mpr ⟨rfl, late, dropped⟩)
  · exact iff_of_true (by simp) fun ⟨given, _, dropped⟩ => kept ⟨dropped, .inl given⟩

theorem deploy_triple (backup : Bool) (schema : Schema) :
    Triple (Deployment.Begun schema) (deploy setup steps backup)
      (fun _ state => (∀ drop ∈ state.drops, drop.Safe schema) ↔
        ¬ DropsUpdated setup steps backup schema)
      (fun _ state => (∀ drop ∈ state.drops, drop.Safe schema) ↔
        ¬ DropsUpdated setup steps backup schema) := by
  refine bind ((plan_triple setup steps schema).weaken (fun _ begun => begun)
    (fun _ _ planned => planned) ?_) fun plan => ?_
  · rintro error state ⟨⟨-, -, none⟩, unplanned⟩
    refine iff_of_true (by simp [none]) ?_
    exact fun ⟨script, current, planned, _⟩ => unplanned script current planned
  cases plan with
  | unchanged info =>
    rintro state ⟨⟨-, -, none⟩, planned, -⟩
    refine iff_of_true (by simp [none]) ?_
    exact fun ⟨script, current, updated, _⟩ => nomatch (planned script current).mpr updated
  | run script current =>
    rintro state ⟨begun, planned, created⟩
    rw [dropsUpdated_iff planned]
    refine (log_bind (fun _ _ begun => begun) (Triple.bind
      ((backUp_triple setup steps backup current schema).weaken (fun _ begun => begun)
        (fun _ _ backed => backed) ?_) ?_) : Triple (Deployment.Begun schema) _ _ _) state begun
    · rintro error later ⟨⟨-, -, none⟩, unbacked⟩
      exact iff_of_true (by simp [none]) fun updated => unbacked updated.1
    · rintro available later ⟨ready, complete, backed⟩
      refine handle ((runScript_triple setup steps script current available schema).weaken
        (fun _ ready => ready) ?_ fun _ _ broken => broken) (fun error => ?_) later
        ⟨ready, complete⟩
      · rintro info final ⟨none, early⟩
        refine iff_of_true (by simp [none]) fun updated => early ?_
        rw [backed.mpr updated.1]
        exact updated.2.1
      · refine bind ((dropBroken_triple steps current available
          (Broken steps script available)).weaken (fun _ broken => broken)
          (fun _ _ handled => handled) fun _ _ => False.elim) fun _ => ?_
        refine (report_triple setup steps available error current _).weaken
          (fun _ handled => handled) (fun _ _ => False.elim) fun _ final handled => ?_
        exact safe_iff_of_handled (fun none => created script (by rw [none])) backed handled

/-- Every drop is safe unless the removal of the backup fails after the script completed. -/
theorem drops_safe_iff (backup : Bool) (state : Deployment) :
    (∀ drop ∈ (deploy setup steps backup state.begin).2.drops, drop.Safe state.schema) ↔
      ¬ DropsUpdated setup steps backup state.schema := by
  have run := deploy_triple setup steps backup state.schema state.begin state.begun_begin
  cases ended : deploy setup steps backup state.begin with
  | mk result later =>
    rw [ended] at run
    cases result with
    | ok info => exact run
    | error error => exact run

/-- An update from 4.0.0 in which only the removal of the backup fails, after one of its
files is gone. -/
def removalFails : Steps where
  script := some []
  substitute := .ok
  lock := .ok ()
  schemaQuery := .ok ()
  managed := .ok true
  version := .ok ⟨4, 0, 0⟩
  procedures := fun _ => .ok [⟨4, 0, 0⟩]
  dataPath := .ok ()
  createDirectory := .ok ()
  localInfile := .ok true
  enableLocalInfile := .ok ()
  dump := .ok ()
  discardIncomplete := .removed
  execute := fun _ => .ok ()
  discardDone := .failed (word "Error removing directory") .incomplete
  disableLocalInfile := .ok ()
  drop := .ok ()
  restore := .error (word "Cannot open file")
  discardRestored := .removed

/-- The updated schema is dropped with an incomplete backup. -/
theorem updated_schema_dropped :
    (deploy ⟨word "mariadb_rest_service", word "deployment.sql", true⟩ removalFails true
      (Deployment.begin ⟨.original, false, [], true, .absent, false, true, []⟩)).2.drops =
        [⟨true, .incomplete⟩] ∧
      ¬ Drop.Safe .original ⟨true, .incomplete⟩ := by
  decide

end ScriptDeployer

end MariadbShell.Mrs
