import Wal.Lib.Runs
import Wal.System
import Wal.Writing

/-!
# A batch of writes in its file

`writeBatchVectored_exact` puts together what `write_batch_vectored` leaves in the file and when it
returns.
-/

namespace Wal

open Lib

variable {C Cb : Type}

variable (C Cb) in
/-- Pieces that are written to a file are found behind what it held, and no other file changes. -/
theorem runs_appends (f : Nat) (ps : List Bytes) (fs : Fs) :
    ∃ fs', runs Fs.onEffect fs (Worker.appends f ps : List (Effect C Cb)) = some fs' ∧
      (fs'.file f).data = (fs.file f).data ++ ps.flatten ∧ ∀ g, g ≠ f → fs'.file g = fs.file g := by
  induction ps generalizing fs with
  | nil => exact ⟨fs, rfl, by simp, fun _ _ => rfl⟩
  | cons p ps ih =>
    obtain ⟨fs', hrun, hdata, hother⟩ := ih (fs.append f p)
    refine ⟨fs', hrun, ?_, fun g hg => ?_⟩
    · rw [hdata, Fs.append_file_self, FileData.append_data, List.flatten_cons, List.append_assoc]
    · rw [hother g hg, Fs.append_file_ne _ hg]

/-- What stands behind the old contents of the file: all of `data`, or a first part when the call
fails or the results of its write calls end. -/
def Leaves (data : Bytes) (attempts : Nat) (bs : Bytes) : Except Stop IoResult → Prop
  | .ok (.ok ()) => bs = data
  | .ok (.error _) => bs <+: data ∧ bs.length < data.length
  | .error s => s = .starved ∧ bs <+: data ∧ attempts < data.length

/-- Results of which all from the `k`-th on are no interruptions. -/
theorem attempts_stream {results : Nat → Except IoError Nat} {k : Nat}
    (h : ∀ n ≥ k, interrupted (results n) = false) (m : Nat) :
    m - k ≤ ((List.range m).map results).countP (!interrupted ·) := by
  induction m with
  | zero => simp
  | succ m ih =>
    rw [List.range_succ, List.map_append, List.countP_append, List.map_singleton,
      List.countP_singleton]
    by_cases hk : k ≤ m
    · rw [h m hk]
      simp only [Bool.not_false, if_true]
      omega
    · omega

/-- **A batch of writes** neither loses nor repeats nor reorders bytes: what is appended to the file
is their data in order when the call succeeds, and a proper first part of it when the call fails.
The call returns as soon as its write calls have given as many results as there are bytes,
interruptions apart. -/
theorem writeBatchVectored_exact (f : Nat) (ws : List (QueuedWrite Cb)) :
    (∀ (x : Exec C Cb) (fs : Fs), ∃ es fs' bs,
      (outcome (Worker.writeBatchVectored f ws) x).2.effects = x.effects ++ es ∧
      runs Fs.onEffect fs es = some fs' ∧ (fs'.file f).data = (fs.file f).data ++ bs ∧
      (∀ g, g ≠ f → fs'.file g = fs.file g) ∧
      Leaves (Worker.writtenData ws) x.script.attempts bs
        (outcome (Worker.writeBatchVectored f ws) x).1) ∧
    ∀ results : Nat → Except IoError Nat, (∃ k, ∀ n ≥ k, interrupted (results n) = false) →
      ∃ n, ∀ m ≥ n, ∀ x : Exec C Cb, x.script.writes = (List.range m).map results →
        ∃ r, (outcome (Worker.writeBatchVectored f ws) x).1 = .ok r := by
  constructor
  · intro x fs
    obtain ⟨es, heffects, -, ps, h⟩ := Worker.writeBatchVectored_logs f ws x
    obtain ⟨fs', hrun, hdata, hother⟩ := runs_appends C Cb f ps fs
    refine ⟨es, fs', ps.flatten, heffects, ?_⟩
    rcases hr : (outcome (Worker.writeBatchVectored f ws) x).1 with s | e | ⟨⟩
    · rw [hr] at h
      obtain ⟨hs, rfl, hp, hlt⟩ := h
      exact ⟨hrun, hdata, hother, hs, hp, hlt⟩
    · rw [hr] at h
      obtain ⟨rfl, hp, hlt⟩ := h
      refine ⟨?_, hdata, hother, hp, hlt⟩
      rw [runs_append, hrun]
      rfl
    · rw [hr] at h
      obtain ⟨rfl, hp, -⟩ := h
      exact ⟨hrun, hdata, hother, hp⟩
  · rintro results ⟨k, hk⟩
    refine ⟨k + (Worker.writtenData ws).length, fun m hm x hx => ?_⟩
    obtain ⟨es, -, -, ps, h⟩ := Worker.writeBatchVectored_logs f ws x
    rcases hr : (outcome (Worker.writeBatchVectored f ws) x).1 with s | r
    · rw [hr] at h
      have := attempts_stream hk m
      have hlt := h.2.2.2
      rw [Script.attempts, hx] at hlt
      omega
    · exact ⟨r, rfl⟩

end Wal
