/-
**Extracting all chunks at once.**

Workers extract chunks in parallel and stop when one has failed. The results are collected in chunk
order: where the model's answer depends on the prompt alone they are those of extracting one chunk
after the other, and so is the error, whichever chunk failed first in time
(`extractAll_sequential`).
-/

import DrStrange.Lib.WorkPool
import DrStrange.Llm.Extract

namespace DrStrange.Llm

open Lib Lib.WorkPool

/-! ### The code -/

/-- A chunk behind its block of entities to reuse: `link_chunks` makes one block for each chunk. -/
abbrev LinkedChunk := Option String × List Char

/-- A model whose answer depends on the prompts alone. -/
def Chat.pure (answer : String → String → Except ChatError Reply) : Chat Unit :=
  fun system prompt s => (answer system prompt, s)

/-- The slots in order, up to the first that holds an error or nothing. -/
def collect (abandoned : ChatError) :
    List (Option (Except ChatError ChunkExtract)) → Except ChatError (List ChunkExtract)
  | [] => .ok []
  | some (.ok extract) :: slots => (collect abandoned slots).map (extract :: ·)
  | some (.error error) :: _ => .error error
  | none :: _ => .error abandoned

/-- A hole is not a result. -/
def abandoned : ChatError := .other "extraction was abandoned after an earlier chunk failed"

section

variable (answer : String → String → Except ChatError Reply) (parse : Parse) (system : String)

/-- One chunk's extraction. -/
def extractOne (chunk : LinkedChunk) : Except ChatError ChunkExtract :=
  (extractChunk (.pure answer) parse system chunk.1 chunk.2 ()).1

/-- What a worker runs for an index that it has taken. -/
def extractAt (chunks : List LinkedChunk) (i : ℕ) : Except ChatError ChunkExtract :=
  match chunks[i]? with
  | some chunk => extractOne answer parse system chunk
  | none => .error abandoned

/-- The pool before any worker has taken a step. -/
def spawn (chunks : List LinkedChunk) (concurrency : ℕ) : Pool ChatError ChunkExtract :=
  .start _ _ chunks.length (min (max concurrency 1) (max chunks.length 1))

/-- Extracts all chunks, with the workers' steps in the order of a schedule; nothing where the
schedule does not bring every worker to its end. -/
def extractAll (chunks : List LinkedChunk) (concurrency : ℕ) (schedule : List ℕ) :
    Option (Except ChatError (List ChunkExtract)) := do
  let pool ← (spawn chunks concurrency).run (extractAt answer parse system chunks) schedule
  if pool.workers.all (fun worker => worker matches .done) then return collect abandoned pool.slots
  else none

end

/-! ### In order -/

variable {answer : String → String → Except ChatError Reply} {parse : Parse} {system : String}
  {chunks : List LinkedChunk} {concurrency m : ℕ} {schedule : List ℕ}
  {pool : Pool ChatError ChunkExtract} {task : ℕ → Except ChatError ChunkExtract}

theorem fails_succ {extract : ChunkExtract} (first : task 0 = .ok extract)
    (failed : ∃ i < m + 1, Fails task i) : ∃ i < m, Fails (fun i => task (i + 1)) i := by
  obtain ⟨i, below, error, same⟩ := failed
  cases i with
  | zero => cases first.symm.trans same
  | succ i => exact ⟨i, Nat.lt_of_succ_lt_succ below, error, same⟩

/-- **Collecting the results below a bound** is extracting in order, if that is all of them or one
has failed. -/
theorem collect_resultsBelow {extract : LinkedChunk → Except ChatError ChunkExtract}
    (error : ChatError) (agrees : ∀ i chunk, chunks[i]? = some chunk → task i = extract chunk)
    (within : m ≤ chunks.length) (enough : m = chunks.length ∨ ∃ i < m, Fails task i) :
    collect error (resultsBelow task chunks.length m) = chunks.mapM extract := by
  induction chunks generalizing m task with
  | nil => rfl
  | cons chunk chunks ih =>
    cases m with
    | zero =>
      obtain none_ | ⟨i, below, -⟩ := enough
      · cases none_
      · exact absurd below (Nat.not_lt_zero i)
    | succ m =>
      rw [List.length_cons, resultsBelow_succ, List.mapM_cons, agrees 0 chunk rfl]
      cases out : extract chunk with
      | error error => rfl
      | ok first =>
        have rest := ih (fun i chunk here => agrees (i + 1) chunk here)
          (Nat.le_of_succ_le_succ within)
          (enough.imp Nat.succ.inj (fails_succ ((agrees 0 chunk rfl).trans out)))
        rw [collect, rest]
        cases chunks.mapM extract <;> rfl

/-- What the slots hold when every worker is done. -/
theorem slots_of_finished
    (ran : (spawn chunks concurrency).run (extractAt answer parse system chunks) schedule =
      some pool)
    (finished : pool.finished) : ∃ m ≤ chunks.length,
      pool.slots = resultsBelow (extractAt answer parse system chunks) chunks.length m ∧
      (m = chunks.length ∨ ∃ i < m, Fails (extractAt answer parse system chunks) i) :=
  finished_results (by omega) ran finished

theorem finished_iff :
    (pool.workers.all fun worker => worker matches .done) = true ↔ pool.finished := by
  rw [List.all_eq_true]
  refine forall₂_congr fun worker _ => ?_
  cases worker <;> simp

/-- **Extracting in parallel is extracting in order.** Whatever the order of the workers' steps,
when all are done the answer is that of one chunk after the other, and would be with any other error
for a hole; a slot without a result stands behind one with an error. No run has more steps than five
for each chunk and two for each worker, and every run can go on to its end. -/
theorem extractAll_sequential (answer : String → String → Except ChatError Reply) (parse : Parse)
    (system : String) (chunks : List LinkedChunk) (concurrency : ℕ) :
    (∀ schedule result, extractAll answer parse system chunks concurrency schedule = some result →
      result = chunks.mapM (extractOne answer parse system)) ∧
    (∀ schedule pool, (spawn chunks concurrency).run (extractAt answer parse system chunks)
      schedule = some pool →
      schedule.length ≤ 5 * chunks.length + 2 * min (max concurrency 1) (max chunks.length 1) ∧
      (∃ more, ∃ result, extractAll answer parse system chunks concurrency (schedule ++ more) =
        some result) ∧
      (pool.finished → (∀ error, collect error pool.slots =
        chunks.mapM (extractOne answer parse system)) ∧
        ∀ i : ℕ, pool.slots[i]? = some none → ∃ j < i, ∃ error,
        pool.slots[j]? = some (some (.error error)))) := by
  have agrees : ∀ i chunk, chunks[i]? = some chunk →
      extractAt answer parse system chunks i = extractOne answer parse system chunk := by
    intro i chunk here
    rw [extractAt, here]
  have collected : ∀ schedule pool, (spawn chunks concurrency).run
      (extractAt answer parse system chunks) schedule =
      some pool → pool.finished → ∀ error, collect error pool.slots =
        chunks.mapM (extractOne answer parse system) := by
    intro schedule pool ran finished error
    obtain ⟨m, within, slots, enough⟩ := slots_of_finished ran finished
    rw [slots]
    exact collect_resultsBelow error agrees within enough
  refine ⟨fun schedule result came => ?_, fun schedule pool ran =>
    ⟨run_length ran, ?_, fun finished =>
    ⟨collected schedule pool ran finished, fun i hole => ?_⟩⟩⟩
  · obtain ⟨pool, ran, ended⟩ := Option.bind_eq_some_iff.mp came
    split_ifs at ended with finished
    obtain rfl := Option.some.inj ended
    exact collected schedule pool ran (finished_iff.mp finished) abandoned
  · obtain ⟨more, after, rest, finished⟩ := run_finishes (extractAt answer parse system chunks) pool
    refine ⟨more, collect abandoned after.slots, Option.bind_eq_some_iff.mpr ⟨after, ?_, ?_⟩⟩
    · rw [Pool.run, List.foldlM_append]
      exact Option.bind_eq_some_iff.mpr ⟨pool, ran, rest⟩
    · rw [if_pos (finished_iff.mpr finished)]
      rfl
  · obtain ⟨m, within, slots, enough⟩ := slots_of_finished ran finished
    rw [slots, resultsBelow, List.getElem?_map, Option.map_eq_some_iff] at hole
    obtain ⟨i', here, empty⟩ := hole
    obtain ⟨inside, same⟩ := List.getElem?_eq_some_iff.mp here
    obtain rfl : i = i' := by rwa [List.getElem_range] at same
    rw [List.length_range] at inside
    split_ifs at empty with below
    obtain rfl | ⟨j, before, error, failed⟩ := enough
    · exact absurd inside below
    · refine ⟨j, before.trans_le (Nat.le_of_not_lt below), error, ?_⟩
      rw [slots, resultsBelow, List.getElem?_map, List.getElem?_range (before.trans_le within),
        Option.map_some,
        if_pos before, failed]

end DrStrange.Llm
