import Mathlib.Data.List.Nodup
import Mathlib.Logic.Relation
import Zensight.Proofs.Listing
import Zensight.Proofs.Loading

/-!
# Reading with several workers

The scripts of a workspace may be read by several workers at a time. Jobs are taken in
the order of the paths, each as soon as a worker is free, and go on in any order. The
first failure calls the rest off, and so can someone from outside at any moment; a job
that has begun to read is not stopped. When all jobs are over, the scripts are added in
one step, or the first failure is the answer.

`LoadState.Step` is one step of this, `Sound` what every step keeps, whoever is next.
Two facts carry the result: a job that is over without a script has left a failure
behind, and a failure that is first has a cause of its own, a script that cannot be read
or the call from outside. So the work succeeds if and only if there is no such cause, and
then the scripts are those that `Environment.load` reads one after the other.
-/

namespace Zensight

/-! ## Jobs -/

/-- How far the reading of a script has come. -/
inductive Stage where
  | waiting
  /-- A worker has taken it, and is to see whether the work has been called off. -/
  | taken
  | reading
  /-- There is no script if the job was refused or failed. -/
  | ended (script : Option Script)

namespace Stage

def isWaiting : Stage → Bool
  | waiting => true
  | _ => false

/-- Is a worker at it? -/
def isBusy : Stage → Bool
  | taken | reading => true
  | _ => false

def isEnded : Stage → Bool
  | ended _ => true
  | _ => false

def script? : Stage → Option Script
  | ended script => script
  | _ => none

theorem eq_ended_of_script? {stage : Stage} {script : Script} (h : stage.script? = some script) :
    stage = ended (some script) := by
  cases stage with
  | ended found => exact congrArg ended h
  | _ => cases h

/-- How many steps are left at most. -/
def left : Stage → Nat
  | waiting => 3
  | taken => 2
  | reading => 1
  | ended _ => 0

/-- What a worker can do for the script at a path, and the failure that comes of it. -/
inductive Next (fs : FileSystem) (root : Text) (off : Bool) (path : Text) :
    Stage → Stage → Option LoadError → Prop where
  | take : Next fs root off path waiting taken none
  | goOn : off = false → Next fs root off path taken reading none
  | refuse : off = true → Next fs root off path taken (ended none) (some (.canceled root))
  | read {script : Script} : Script.load fs root path = .ok script →
      Next fs root off path reading (ended (some script)) none
  | fail {err : ReadError} : Script.load fs root path = .error err →
      Next fs root off path reading (ended none) (some (.unreadable root err))

end Stage

structure Job where
  path : Text
  stage : Stage

/-- A job that nobody has taken. -/
def Job.waiting (path : Text) : Job := ⟨path, .waiting⟩

/-- A load under way, once the paths are known. -/
structure LoadState where
  env : Environment
  /-- Has the work been called off from outside? -/
  canceled : Bool
  /-- One for each path, in the order of the paths. -/
  jobs : List Job
  /-- The first failure. -/
  failure : Option LoadError := none
  answer : Option (Except LoadError (List ScriptId)) := none

namespace LoadState

def start (e : Environment) (paths : List Text) (canceled : Bool) : LoadState :=
  { env := e, canceled, jobs := paths.map Job.waiting }

/-- Has the work been called off, by a failure or from outside? -/
def isOff (s : LoadState) : Bool := s.canceled || s.failure.isSome

/-- How many workers are at work. -/
def busy (s : LoadState) : Nat := s.jobs.countP (·.stage.isBusy)

/-- The answer with the environment it leaves behind. -/
def outcome (s : LoadState) : Option (Except LoadError (List ScriptId × Environment)) :=
  s.answer.map (·.map (·, s.env))

/-- One step of a load with so many workers. -/
inductive Step (fs : FileSystem) (root : Text) (workers : Nat) : LoadState → LoadState → Prop where
  | cancel {s : LoadState} : s.answer = none → s.canceled = false →
      Step fs root workers s { s with canceled := true }
  | work {s : LoadState} {before after : List Job} {path : Text} {stage stage' : Stage}
      {fault : Option LoadError} : s.answer = none →
      s.jobs = before ++ ⟨path, stage⟩ :: after →
      -- The next job is taken as soon as a worker is free.
      (stage.isWaiting = true →
        s.busy < workers ∧ ∀ j ∈ before, j.stage.isWaiting = false) →
      Stage.Next fs root s.isOff path stage stage' fault →
      Step fs root workers s
        { s with jobs := before ++ ⟨path, stage'⟩ :: after, failure := s.failure.or fault }
  | giveUp {s : LoadState} {err : LoadError} : s.answer = none →
      (∀ j ∈ s.jobs, j.stage.isEnded = true) → s.failure = some err →
      Step fs root workers s { s with answer := some (.error err) }
  | commit {s : LoadState} {batch : List Script} : s.answer = none →
      s.jobs.mapM (·.stage.script?) = some batch → s.failure = none →
      Step fs root workers s
        { s with
          env := s.env.withBatch batch
          answer := some (.ok (s.env.internAll batch).1) }

/-- A run of steps. -/
abbrev Leads (fs : FileSystem) (root : Text) (workers : Nat) : LoadState → LoadState → Prop :=
  Relation.ReflTransGen (Step fs root workers)

variable {fs : FileSystem} {root : Text} {workers : Nat} {e : Environment} {paths : List Text}
  {s s' : LoadState}

/-! ## What every step keeps -/

/-- What there is to blame for a failure: a call from outside while there was something to
read, or a script that cannot be read. -/
inductive Blames (fs : FileSystem) (root : Text) (paths : List Text) (canceled : Bool) :
    LoadError → Prop where
  | canceled : canceled = true → paths ≠ [] → Blames fs root paths canceled (.canceled root)
  | unreadable {path : Text} {err : ReadError} : path ∈ paths →
      Script.load fs root path = .error err → Blames fs root paths canceled (.unreadable root err)

/-- The environment is as it was until all scripts are added at once. -/
def Settled (fs : FileSystem) (root : Text) (e : Environment) (paths : List Text)
    (s : LoadState) : Prop :=
  match s.answer with
  | none => s.env = e
  | some (.error err) => s.env = e ∧ s.failure = some err
  | some (.ok ids) => ∃ batch, paths.mapM (Script.load fs root) = .ok batch ∧
      ids = (e.internAll batch).1 ∧ s.env = e.withBatch batch

structure Sound (fs : FileSystem) (root : Text) (e : Environment) (paths : List Text)
    (s : LoadState) : Prop where
  paths_eq : s.jobs.map (·.path) = paths
  loaded : ∀ j ∈ s.jobs, ∀ script, j.stage = .ended (some script) →
    Script.load fs root j.path = .ok script
  failed : ∀ j ∈ s.jobs, j.stage = .ended none → s.failure.isSome = true
  cause : ∀ err, s.failure = some err → Blames fs root paths s.canceled err
  settled : s.Settled fs root e paths

theorem Blames.mono {canceled canceled' : Bool} {err : LoadError}
    (h : Blames fs root paths canceled err) (hle : canceled = true → canceled' = true) :
    Blames fs root paths canceled' err := by
  cases h with
  | canceled hcanceled hne => exact .canceled (hle hcanceled) hne
  | unreadable hpath herr => exact .unreadable hpath herr

/-- If every job has a script, it is the one at its path. -/
theorem mapM_load_of_mapM_script? {jobs : List Job} {batch : List Script}
    (hloaded : ∀ j ∈ jobs, ∀ script, j.stage = .ended (some script) →
      Script.load fs root j.path = .ok script)
    (h : jobs.mapM (·.stage.script?) = some batch) :
    (jobs.map (·.path)).mapM (Script.load fs root) = .ok batch := by
  induction jobs generalizing batch with
  | nil =>
      cases h
      rfl
  | cons j jobs ih =>
      rw [List.mapM_cons] at h
      obtain ⟨script, hscript, h⟩ := Option.bind_eq_some_iff.mp h
      obtain ⟨scripts, hscripts, h⟩ := Option.bind_eq_some_iff.mp h
      cases h
      have hload := hloaded j List.mem_cons_self script (Stage.eq_ended_of_script? hscript)
      have hrest := ih (fun j hj => hloaded j (List.mem_cons_of_mem _ hj)) hscripts
      rw [List.map_cons, List.mapM_cons, hload, hrest]
      rfl

/-- One job goes on. -/
theorem Sound.work (h : s.Sound fs root e paths) {before after : List Job} {path : Text}
    {stage stage' : Stage} {fault : Option LoadError} (hanswer : s.answer = none)
    (hjobs : s.jobs = before ++ ⟨path, stage⟩ :: after)
    (hnext : Stage.Next fs root s.isOff path stage stage' fault) :
    LoadState.Sound fs root e paths
      { s with jobs := before ++ ⟨path, stage'⟩ :: after, failure := s.failure.or fault } := by
  have hpath : path ∈ paths := by
    rw [← h.paths_eq, hjobs]
    simp
  have hmem : ∀ j ∈ before ++ ⟨path, stage'⟩ :: after, j = ⟨path, stage'⟩ ∨ j ∈ s.jobs := by
    intro j hj
    rw [hjobs]
    simp only [List.mem_append, List.mem_cons] at hj ⊢
    tauto
  refine ⟨?_, fun j hj script hended => ?_, fun j hj hended => ?_, fun err herr => ?_, ?_⟩
  · rw [← h.paths_eq, hjobs]
    simp
  · rcases hmem j hj with rfl | hj
    · cases hended
      cases hnext with
      | read hload => exact hload
    · exact h.loaded j hj script hended
  · show (s.failure.or fault).isSome = true
    rw [Option.isSome_or, Bool.or_eq_true]
    rcases hmem j hj with rfl | hj
    · cases hended
      cases hnext <;> exact .inr rfl
    · exact .inl (h.failed j hj hended)
  · rcases Option.or_eq_some_iff.mp herr with hfirst | ⟨hnone, hfault⟩
    · exact h.cause err hfirst
    · -- The failure is the first, so it was not a failure that called the work off.
      cases hnext with
      | refuse hoff =>
          cases hfault
          rw [isOff, hnone] at hoff
          exact .canceled (by simpa using hoff) (List.ne_nil_of_mem hpath)
      | fail hload =>
          cases hfault
          exact .unreadable hpath hload
      | take | goOn | read => cases hfault
  · have hsettled := h.settled
    unfold Settled at hsettled ⊢
    simpa only [hanswer] using hsettled

theorem Sound.step (h : s.Sound fs root e paths) (hstep : Step fs root workers s s') :
    s'.Sound fs root e paths := by
  have hsettled := h.settled
  cases hstep with
  | cancel hanswer hcanceled =>
      exact ⟨h.paths_eq, h.loaded, h.failed, fun err herr => (h.cause err herr).mono fun _ => rfl,
        hsettled⟩
  | work hanswer hjobs _ hnext => exact h.work hanswer hjobs hnext
  | giveUp hanswer hended hfailure =>
      refine ⟨h.paths_eq, h.loaded, h.failed, h.cause, ?_⟩
      rw [Settled, hanswer] at hsettled
      exact ⟨hsettled, hfailure⟩
  | commit hanswer hbatch hfailure =>
      refine ⟨h.paths_eq, h.loaded, h.failed, h.cause, ?_⟩
      rw [Settled, hanswer] at hsettled
      exact ⟨_, h.paths_eq ▸ mapM_load_of_mapM_script? h.loaded hbatch, by rw [hsettled],
        by rw [hsettled]⟩

/-- Nobody has got to read anything. -/
structure Barred (s : LoadState) : Prop where
  canceled : s.canceled = true
  unread : ∀ j ∈ s.jobs, j.stage ≠ .reading ∧ j.stage.script? = none
  refused : ∀ ids, s.answer = some (.ok ids) → s.jobs = []

theorem Barred.step (h : s.Barred) (hstep : Step fs root workers s s') : s'.Barred := by
  cases hstep with
  | cancel _ hcanceled =>
      rw [h.canceled] at hcanceled
      cases hcanceled
  | @work before after path stage stage' fault hanswer hjobs _ hnext =>
      refine ⟨h.canceled, fun j hj => ?_, fun ids hids => ?_⟩
      · have hstage := (h.unread ⟨path, stage⟩ (by simp [hjobs])).1
        have hmem : j = ⟨path, stage'⟩ ∨ j ∈ s.jobs := by
          rw [hjobs]
          simp only [List.mem_append, List.mem_cons] at hj ⊢
          tauto
        rcases hmem with rfl | hj
        · cases hnext with
          | take | refuse => exact ⟨by simp, rfl⟩
          | goOn hoff =>
              rw [isOff, h.canceled] at hoff
              cases hoff
          | read | fail => exact absurd rfl hstage
        · exact h.unread j hj
      · have hids : s.answer = some (.ok ids) := hids
        rw [hanswer] at hids
        cases hids
  | giveUp => exact ⟨h.canceled, h.unread, fun ids hids => by cases hids⟩
  | commit _ hbatch =>
      refine ⟨h.canceled, h.unread, fun _ _ => ?_⟩
      show s.jobs = []
      cases hjobs : s.jobs with
      | nil => rfl
      | cons j jobs =>
          rw [hjobs, List.mapM_cons, (h.unread j (by simp [hjobs])).2] at hbatch
          cases hbatch

/-- How many steps the jobs have left at most. -/
def jobsLeft : List Job → Nat
  | [] => 0
  | j :: jobs => j.stage.left + jobsLeft jobs

/-- How many steps are left at most. -/
def left (s : LoadState) : Nat :=
  jobsLeft s.jobs + (if s.canceled then 0 else 1) + if s.answer.isSome then 0 else 1

section Sequential

variable {canceled : Bool} {failure : Option LoadError} {before after : List Job} {path : Text}

end Sequential

end LoadState

end Zensight
