import KubeFdb.Properties.Collectors
import KubeFdb.System.Store

/-!
# log と索引の一致

書き込みと compaction をどう挟んでも、`byRevision` の header と `byKeyAndRevision` の entry は
一対一に対応し、同じ内容を持つ（`LogIndexAgree`）。そこから、片方で見つけた revision を
もう片方で引くところ（`compactProcessor.next`、`Delete`、`fetchLegacy`）は失敗しない。
-/

namespace KubeFdb

open Tuple

/-- log と索引が同じ record を持つこと。 -/
structure LogIndexAgree (db : Db) : Prop where
  header_iff : ∀ rev key,
    (∃ t, (headerKey rev, RevValue.header t) ∈ db.byRevision.entries ∧ t.key = key) ↔
      ∃ t, (indexKey key rev, t) ∈ db.byKeyAndRevision.entries
  fields : ∀ rev t t', (headerKey rev, RevValue.header t) ∈ db.byRevision.entries →
    (indexKey t.key rev, t') ∈ db.byKeyAndRevision.entries →
    t.isDelete = t'.isDelete ∧ t.isCreate = t'.isCreate ∧ t.lease = t'.lease ∧
      t.createRevision = t'.createRevision ∧ t.prevRevision = t'.prevRevision ∧
      t.valueSize = t'.valueSize
  /-- log にある鍵の `getLast` は nil にならない。 -/
  getLast_isSome : ∀ rev t, (headerKey rev, RevValue.header t) ∈ db.byRevision.entries →
    (db.getLast t.key).isSome
  /-- 索引にある revision の `byRevision.Get` は nil にならない。 -/
  get_isSome : ∀ key rev t, (indexKey key rev, t) ∈ db.byKeyAndRevision.entries →
    ∃ record, ByRevision.get db.byRevision rev = .ok (some record)

variable {cfg : Config} {db : Db} {recs : List RevRecord} {s : Store}

theorem Db.Holds.agree (h : db.Holds recs) : LogIndexAgree db where
  header_iff rev key := by
    constructor
    · rintro ⟨t, hm, rfl⟩
      obtain ⟨r, hr, rfl, rfl⟩ := header_mem h hm
      exact ⟨_, (h.index _).mpr ⟨r, hr, rfl⟩⟩
    · rintro ⟨t, hm⟩
      obtain ⟨r, hr, rfl, rfl, rfl⟩ := index_mem h hm
      exact ⟨_, header_mem_of h hr, rfl⟩
  fields rev t t' hm hm' := by
    obtain ⟨r, hr, rfl, rfl⟩ := header_mem h hm
    obtain ⟨r', hr', hrev, -, rfl⟩ := index_mem h hm'
    rw [h.sorted.eq_of_index_eq hr' hr hrev]
    exact ⟨rfl, rfl, rfl, rfl, rfl, rfl⟩
  getLast_isSome rev t hm := by
    obtain ⟨r, hr, rfl, rfl⟩ := header_mem h hm
    obtain ⟨last, hl⟩ := exists_newest RevRecord.key hr rfl
    rw [getLast_eq h, show (ByRevision.recordToTuple r.record).key = r.key from rfl, hl]
    rfl
  get_isSome key rev t hm := by
    obtain ⟨r, hr, rfl, -, -⟩ := index_mem h hm
    exact ⟨_, get_eq h hr⟩

/-! ## 失敗しない参照 -/

/-- 書き込みの transaction は nil を参照しない。 -/
theorem tx_ne_nilDereference (h : db.Holds recs) (op : WriteOp) (lastWriteUUID uuid : UUID) (v : Nat) :
    op.tx cfg lastWriteUUID uuid v db ≠ .error .nilDereference := by
  intro he
  have hcase := tx_cases cfg h op lastWriteUUID uuid v
  rw [he] at hcase
  cases hcase

/-- compaction の batch は失敗しない。 -/
theorem compact_batch_status {c : CompactCall} (h : db.Holds recs) {begin_ : Option Versionstamp}
    (hb : c.beginKey = begin_.map (chunkKey · maxInt64)) (endRev : Int) (n : Nat) (e : Err) :
    (c.batch CompactProcessor.processor (compactRange endRev) n db).1.status ≠ .failed e := by
  have hspec := compact_batch h hb endRev n
  by_cases hn : n < (compactTodo recs begin_ endRev).length
  · rw [(hspec.running hn).1]
    simp
  · rw [(hspec.done (not_lt.mp hn)).1]
    simp

/-- `next` が失敗せずに保つ性質は、batch の loop が終わるまで保たれる。`Q` は iterator の
entry の性質である。 -/
theorem batchLoop_invariant {σ κ ν : Type} {p : Processor σ κ ν} {I : σ → Db → Prop}
    {Q : κ × ν → Prop}
    (hnext : ∀ s tr it, I s tr → (∀ e ∈ it, Q e) → ∃ s' tr' it' k more,
      p.next s tr it = (s', tr', .ok (it', k, more)) ∧ I s' tr' ∧ ∀ e ∈ it', Q e) :
    ∀ (n : Nat) {s : σ} {tr : Db} {it : List (κ × ν)} (last : Option κ),
      I s tr → (∀ e ∈ it, Q e) →
    ∃ s' tr' res, batchLoop p n s tr it last = (s', tr', .ok res) ∧ I s' tr'
  | 0, s, tr, it, last, hi, _ => ⟨s, tr, _, rfl, hi⟩
  | n + 1, s, tr, it, last, hi, hq => by
    obtain ⟨s₁, tr₁, it₁, k, more, hn, hi₁, hq₁⟩ := hnext s tr it hi hq
    rw [batchLoop, hn]
    simp only
    split
    · exact batchLoop_invariant hnext n k hi₁ hq₁
    · exact ⟨s₁, tr₁, _, rfl, hi₁⟩

/-- batch の中の collector が、revision が `P` を満たす record だけを持つこと。 -/
structure Carries (P : Versionstamp → Prop) (c : RecordCollector ListCollector) : Prop where
  batch : ∀ r ∈ c.inner.batchRecords, P r.rev
  current : ∀ r ∈ c.batchCurrentRecord, P r.rev

section Carries

variable {P : Versionstamp → Prop} {c : RecordCollector ListCollector}

theorem Carries.deliver (h : Carries P c) {cur : RevRecord} (hc : c.batchCurrentRecord = some cur) :
    ∀ r ∈ (listProcessor.next c.inner cur).1.batchRecords, P r.rev := by
  intro r hr
  rcases List.mem_append.mp hr with hr | hr
  · exact h.batch r hr
  · rw [List.mem_singleton.mp hr]
    exact h.current cur hc

theorem Carries.flush (h : Carries P c) (key : Key) : Carries P (c.flush listProcessor key).1 := by
  unfold RecordCollector.flush
  split
  · exact h
  · next cur hc =>
    split
    · split
      · exact ⟨h.deliver hc, fun r hr => by cases hr⟩
      · exact ⟨h.batch, fun r hr => by cases hr⟩
    · exact h

theorem Carries.accept (h : Carries P c) {r : RevRecord} (hr : P r.rev) : Carries P (c.accept r) := by
  unfold RecordCollector.accept
  split
  · exact ⟨h.batch, fun s hs => by cases hs; exact hr⟩
  · split
    · exact h
    · next cur hc =>
      split
      · exact ⟨h.batch, fun s hs => by cases hs; exact h.current cur hc⟩
      · exact h

theorem Carries.deliverLast (h : Carries P c) (isLast : Bool) :
    Carries P (c.deliverLast listProcessor isLast) := by
  unfold RecordCollector.deliverLast
  split
  · exact h
  · next cur hc =>
    split
    · exact ⟨h.deliver hc, h.current⟩
    · exact h

theorem Carries.next (h : Carries P c) (tr : Db) {it : IndexIterator} (hit : ∀ e ∈ it, P e.1.rev) :
    ∃ c' it' k more, RecordCollector.next listProcessor c tr it = (c', tr, .ok (it', k, more)) ∧
      Carries P c' ∧ ∀ e ∈ it', P e.1.rev := by
  cases it with
  | nil => exact ⟨c, [], none, false, rfl, h, hit⟩
  | cons e it =>
    exact ⟨_, it, _, _, rfl, (h.flush _).accept (hit e List.mem_cons_self),
      fun e' he' => hit e' (List.mem_cons_of_mem _ he')⟩

/-- log にある revision の record だけを持つ collector の仕上げは失敗しない。 -/
theorem Carries.endBatch (h : db.Holds recs)
    (hc : Carries (fun rev => ∃ r ∈ recs, r.rev = rev) c) (e : Err) :
    (c.inner.endBatch db).2 ≠ .error e := by
  unfold ListCollector.endBatch
  split
  · simp
  · split
    · dsimp only
      split
      · next e' he =>
        intro _
        obtain ⟨x, hx, hxe⟩ := resolveAll_error he
        obtain ⟨r, hr, hrev⟩ := hc.batch x.1 (List.of_mem_zip hx).1
        exact (resolve_error h hxe).2 r hr hrev
      · simp
    · simp

end Carries

/-- 一覧の batch が「log に record がない」で失敗するのは、前の batch から持ち越した record が
索引からも消えているときだけである。 -/
theorem list_batch_noRecords (h : db.Holds recs) {call : ListCall ListCollector}
    {range : Bytes × Bytes} {n : Nat}
    (hfail : (call.batch (RecordCollector.processor listProcessor cfg) (indexRange range) n db).1.status
      = .failed .noRecordsInByRevIterator) :
    ∃ cur, call.collector.currentRecord = some cur ∧
      ∀ t, (indexKey cur.key cur.rev, t) ∉ db.byKeyAndRevision.entries := by
  by_contra hno
  push Not at hno
  have hstart : Carries (fun rev => ∃ r ∈ recs, r.rev = rev)
      ((RecordCollector.processor listProcessor cfg).startBatch call.collector) := by
    refine ⟨fun r hr => absurd hr List.not_mem_nil, fun cur hcur => ?_⟩
    obtain ⟨t, ht⟩ := hno cur hcur
    obtain ⟨r, hr, hrev, -, -⟩ := index_mem h ht
    exact ⟨r, hr, hrev⟩
  have hit : ∀ e ∈ indexRange range db call.beginKey, ∃ r ∈ recs, r.rev = e.1.rev := by
    intro e he
    have hmem : e ∈ db.byKeyAndRevision.entries := by
      unfold indexRange entriesAfter at he
      split at he
      · exact List.mem_of_mem_filter he
      · exact List.mem_of_mem_filter (List.mem_of_mem_filter he)
    obtain ⟨r, hr, hrev, -, -⟩ := index_mem h (show (indexKey e.1.key e.1.rev, e.2) ∈ _ from hmem)
    exact ⟨r, hr, hrev⟩
  obtain ⟨c, tr, res, hloop, hc, rfl⟩ := batchLoop_invariant
    (p := RecordCollector.processor listProcessor cfg)
    (I := fun c tr => Carries (fun rev => ∃ r ∈ recs, r.rev = rev) c ∧ tr = db)
    (Q := fun e => ∃ r ∈ recs, r.rev = e.1.rev)
    (fun c tr it hi hq => by
      obtain ⟨c', it', k, more, hn, hc', hq'⟩ := hi.1.next tr hq
      exact ⟨c', tr, it', k, more, hn, ⟨hc', hi.2⟩, hq'⟩)
    (n + 1) none ⟨hstart, rfl⟩ hit
  have hin := (hc.deliverLast (!res.collectorNeedsMore)).endBatch h
  generalize hend : (RecordCollector.processor listProcessor cfg).endBatch c tr
    (!res.collectorNeedsMore) = out at *
  obtain ⟨c', tr', r⟩ := out
  cases r with
  | ok u =>
    rw [RangeCall.batch_ok (processBatch_ok hloop hend)] at hfail
    split at hfail <;> cases hfail
  | error e =>
    rw [RangeCall.batch_error (processBatch_endBatch_error hloop hend)] at hfail
    obtain rfl : e = .noRecordsInByRevIterator := CallStatus.failed.inj hfail
    change RecordCollector.endBatch listProcessor cfg c tr _ = _ at hend
    unfold RecordCollector.endBatch at hend
    simp only at hend
    split at hend
    · next inner e' he => exact hin e' (congrArg Prod.snd he)
    · split at hend <;> cases hend

/-! ## 到達できる store -/

/-- 書き込みと compaction をどう挟んでも log と索引は一致し、片方で見つけた record を
もう片方で引くところは失敗しない。 -/
theorem log_index_agree (cfg : Config) {s : Store} (hs : s.Reachable cfg) :
    LogIndexAgree s.db ∧
      (∀ (op : WriteOp) (lastWriteUUID uuid : UUID) (v : Nat),
        op.tx cfg lastWriteUUID uuid v s.db ≠ .error .nilDereference) ∧
      (∀ x ∈ s.compacts, ∀ n e,
        (x.2.batch CompactProcessor.processor (compactRange x.1) n s.db).1.status ≠ .failed e) ∧
      (∀ (call : ListCall ListCollector) (range : Bytes × Bytes) (n : Nat),
        (call.batch (RecordCollector.processor listProcessor cfg) (indexRange range) n s.db).1.status
          = .failed .noRecordsInByRevIterator →
        ∃ cur, call.collector.currentRecord = some cur ∧
          ∀ t, (indexKey cur.key cur.rev, t) ∉ s.db.byKeyAndRevision.entries) := by
  obtain ⟨recs, h⟩ := hs.inv
  refine ⟨h.tracks.holds.agree, fun op lastWriteUUID uuid v => ?_, fun x hx n e => ?_,
    fun call range n hfail => list_batch_noRecords h.tracks.holds hfail⟩
  · exact tx_ne_nilDereference h.tracks.holds op lastWriteUUID uuid v
  · obtain ⟨b, hb⟩ := h.begins x hx
    exact compact_batch_status h.tracks.holds hb x.1 n e

/-- 二つの鍵を書き、消し、compaction を二つの batch で走らせた store。 -/
theorem log_index_agree_after_compaction :
    ∃ s, runSteps (Store.step .default) .init
        [.write (.create [97] [1] 0) 0 1 2, .write (.update [97] [2] 2 0) 0 2 3,
          .write (.create [98] [3] 0) 0 3 4, .write (.delete [98] 0) 0 4 5,
          .startCompact 5, .compactBatch 0 1 6 true, .compactBatch 0 5 7 true] = some s ∧
      LogIndexAgree s.db := by
  obtain ⟨s, hs⟩ : ∃ s, runSteps (Store.step .default) .init
        [.write (.create [97] [1] 0) 0 1 2, .write (.update [97] [2] 2 0) 0 2 3,
          .write (.create [98] [3] 0) 0 3 4, .write (.delete [98] 0) 0 4 5,
          .startCompact 5, .compactBatch 0 1 6 true, .compactBatch 0 5 7 true] = some s :=
    Option.isSome_iff_exists.mp (by decide +kernel)
  exact ⟨s, hs, (log_index_agree .default ⟨_, hs⟩).1⟩

end KubeFdb
