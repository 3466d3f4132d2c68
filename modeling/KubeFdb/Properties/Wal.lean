import KubeFdb.Driver.Wal
import KubeFdb.Properties.Compaction

/-!
# log の全体の読み出しの仕様

`ReadWAL` は、どこで batch に分かれても、列の record を古い順にすべて返す（`readWAL_eq`）。
-/

namespace KubeFdb

open Tuple

variable {db : Db} {recs : List RevRecord}

theorem wal_next {r : RevRecord} (hr : r.Wf) (c : WalCollector) (tr : Db) (it : RevIterator) :
    WalCollector.next c tr (logEntries r ++ it)
      = ({ c with batchEvents := c.batchEvents ++ [r.stored] }, tr,
        .ok (it, some (chunkKey r.rev maxInt64), true)) := by
  unfold WalCollector.next
  rw [getFromIterator_logEntries hr.size]
  rfl

/-- batch の loop は、残りの列の先頭から読む。読み切るのは、残りより多く呼ばれたときである。 -/
theorem wal_batchLoop : ∀ (n : Nat) (todo : List RevRecord) (c : WalCollector) (last : Option RevKey),
    (∀ r ∈ todo, r.Wf) →
    ∃ k, batchLoop WalCollector.processor n c db (todo.flatMap logEntries) last
        = ({ c with batchEvents := c.batchEvents ++ (todo.take n).map RevRecord.stored }, db,
          .ok ⟨k, decide (n ≤ todo.length)⟩) ∧
      (n ≤ todo.length → k = ((lastVisited (todo.take n)).map (chunkKey · maxInt64)).or last)
  | 0, todo, c, last, _ => ⟨last, by simp [batchLoop], fun _ => rfl⟩
  | n + 1, [], c, last, _ => ⟨none, by simp [batchLoop, WalCollector.processor, WalCollector.next,
      ByRevision.getFromIterator], fun h => absurd h (by simp)⟩
  | n + 1, r :: todo, c, last, hw => by
    obtain ⟨k, hloop, hk⟩ := wal_batchLoop n todo
      { c with batchEvents := c.batchEvents ++ [r.stored] } (some (chunkKey r.rev maxInt64))
      (fun x hx => hw x (List.mem_cons_of_mem _ hx))
    refine ⟨k, ?_, fun hn => ?_⟩
    · rw [batchLoop, List.flatMap_cons,
        show WalCollector.processor.next c db _ = _ from wal_next (hw r List.mem_cons_self) c db _]
      simp only [Option.isSome_some, Bool.and_self, if_true, hloop]
      simp
    · rw [hk (Nat.le_of_succ_le_succ hn), List.take_succ_cons, lastVisited_cons]
      cases lastVisited (todo.take n) <;> rfl

/-- 残りの列の範囲。 -/
theorem walRange_eq (h : db.Holds recs) {read rest : List RevRecord} (he : recs = read ++ rest) :
    walRange db ((lastVisited read).map (chunkKey · maxInt64)) = rest.flatMap logEntries := by
  have hs := h.sorted
  rw [he] at hs
  unfold walRange
  rw [h.log, entriesAfter_flatMap (fun r e he => he) _ (fun r hr => (h.wf r hr).bound), he,
    filter_lastVisited hs]

theorem processRange_wal (h : db.Holds recs) (splits : Nat → Nat) :
    ∀ (fuel i : Nat) (call : RangeCall WalCollector RevKey) (read rest : List RevRecord),
    call.status = .running → call.beginKey = (lastVisited read).map (chunkKey · maxInt64) →
    recs = read ++ rest → call.collector.records = read.map RevRecord.stored → rest.length < fuel →
    (processRange WalCollector.processor walRange splits fuel i call db).1.status = .done ∧
    (processRange WalCollector.processor walRange splits fuel i call db).1.collector.records
      = recs.map RevRecord.stored
  | 0, _, _, _, _, _, _, _, _, hf => absurd hf (Nat.not_lt_zero _)
  | fuel + 1, i, call, read, rest, hrun, hb, he, hrec, hf => by
    have hw : ∀ r ∈ rest, r.Wf := fun r hr => h.wf r (he ▸ List.mem_append_right _ hr)
    obtain ⟨k, hloop, hk⟩ := @wal_batchLoop db (splits i + 1) rest
      (WalCollector.processor.startBatch call.collector) none hw
    rw [← walRange_eq h he, ← hb] at hloop
    have hbatch : call.batch WalCollector.processor walRange (splits i) db = _ :=
      RangeCall.batch_ok (processBatch_ok hloop rfl)
    rw [processRange, if_pos hrun]
    simp only [hbatch]
    by_cases hn : splits i + 1 ≤ rest.length
    · -- 時間が来た。続きは次の batch が読む
      simp only [hn, decide_true, if_true]
      have hne : rest.take (splits i + 1) ≠ [] :=
        List.ne_nil_of_length_pos (by rw [List.length_take]; omega)
      refine processRange_wal h splits fuel (i + 1) _ (read ++ rest.take (splits i + 1))
        (rest.drop (splits i + 1)) rfl ?_ ?_ ?_ ?_
      · rw [show (_ : Option RevKey) = _ from hk hn, Option.or_none]
        unfold lastVisited
        rw [List.getLast?_append_of_ne_nil _ hne]
      · rw [List.append_assoc, List.take_append_drop, he]
      · rw [List.map_append, ← hrec]
        rfl
      · rw [List.length_drop]
        omega
    · simp only [hn, decide_false, Bool.false_eq_true, if_false]
      have hall : rest.take (splits i + 1) = rest := List.take_of_length_le (by omega)
      rw [processRange_of_ne_running (show CallStatus.done ≠ .running by decide)]
      refine ⟨rfl, ?_⟩
      rw [he, List.map_append, ← hrec]
      simp [WalCollector.processor, hall]

/-- **`ReadWAL` は列の record をすべて返す。** -/
theorem readWAL_eq (h : db.Holds recs) (splits : Nat → Nat) :
    readWAL splits db = .ok (recs.map RevRecord.stored) := by
  obtain ⟨hdone, hrec⟩ := processRange_wal h splits (db.byRevision.entries.length + 1) 0
    (.start newWalCollector) [] recs rfl rfl rfl rfl (Nat.lt_succ_of_le h.length_le)
  unfold readWAL
  simp only [hdone, hrec]

end KubeFdb
