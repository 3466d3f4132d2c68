import KubeFdb.Properties.Represents
import KubeFdb.Driver.Write

/-!
# 書き込みの transaction の仕様

`Create`、`Update`、`Delete` の transaction を record の列の上で述べる。

* `append_holds` — `append` は列の末尾に record を足す
* `WriteOp.Writes` — 鍵の最新の record から、書かれる record が決まる
* `tx_cases` — transaction が取りうる結果のすべて
* `tx_answer` — そのとき client に返る revision と `KeyValue`
-/

namespace KubeFdb

open Tuple

variable {cfg : Config} {db : Db} {recs : List RevRecord}

/-! ## append -/

section

variable (cfg : Config) (v : Nat) (uuid : UUID) (record : Record) (size : Int) (db : Db)

theorem append_rev : (append cfg v uuid record size db).1.rev = (db.incrementAndGet cfg v).1 := rfl

theorem append_record :
    (append cfg v uuid record size db).1.record = { record with writeUUID := uuid } := rfl

theorem append_byRevision : (append cfg v uuid record size db).2.byRevision =
    ByRevision.write db.byRevision (append cfg v uuid record size db).1.rev
      (append cfg v uuid record size db).1.record := by
  simp only [append, Db.incrementAndGet]
  split <;> split <;> rfl

theorem append_byKeyAndRevision : (append cfg v uuid record size db).2.byKeyAndRevision =
    ByKeyAndRevision.write db.byKeyAndRevision record.key
      (append cfg v uuid record size db).1.rev (append cfg v uuid record size db).1.record := by
  simp only [append, Db.incrementAndGet]
  split <;> split <;> rfl

theorem append_byKeyCurrent : (append cfg v uuid record size db).2.byKeyCurrent =
    if record.isDelete then ByKeyCurrent.clear db.byKeyCurrent record.key
    else ByKeyCurrent.replace db.byKeyCurrent record.key record.value size := by
  simp only [append, Db.incrementAndGet]
  split <;> split <;> rfl

theorem append_compactRev :
    (append cfg v uuid record size db).2.compactRev = db.compactRev := by
  simp only [append, Db.incrementAndGet]
  split <;> split <;> rfl

theorem append_latestRev :
    (append cfg v uuid record size db).2.latestRev = (db.incrementAndGet cfg v).2.latestRev := by
  simp only [append]
  split <;> rfl

end

/-- 新しい revision は列のどの revision よりも大きい。 -/
theorem incrementAndGet_spec {v : Nat} (hb : db.Bounded cfg recs) (hc : db.CanCommit cfg v) :
    IsRev (db.incrementAndGet cfg v).1 ∧
      db.getLatestRev cfg < versionstampToInt64 (db.incrementAndGet cfg v).1 := by
  obtain ⟨hv, hv63, hseq⟩ := hc
  have hpos := hb.pos
  unfold Db.getLatestRev at hpos ⊢
  unfold Db.incrementAndGet
  cases hm : cfg.useSequentialId with
  | true =>
    have hlt := hseq hm
    simp only [hm, if_true] at hpos ⊢
    rw [int64ToVersionstamp_of_nonneg (by omega) hlt, versionstampToInt64_commitStamp (by omega)]
    exact ⟨⟨_, by omega, by omega, rfl⟩, by omega⟩
  | false =>
    simp only [hm, Bool.false_eq_true, if_false] at hpos ⊢
    rw [versionstampToInt64_commitStamp hv63]
    exact ⟨⟨v, by omega, hv63, rfl⟩, by omega⟩

theorem Db.Bounded.lt_new {v : Nat} (h : db.Holds recs) (hb : db.Bounded cfg recs)
    (hc : db.CanCommit cfg v) {r : RevRecord} (hr : r ∈ recs) :
    r.rev < (db.incrementAndGet cfg v).1 := by
  obtain ⟨hrev, hlt⟩ := incrementAndGet_spec hb hc
  exact ((h.wf r hr).rev.lt_iff hrev).mpr ((hb.le r hr).trans_lt hlt)

/-- `append` が受け取る record が満たすこと。 -/
structure Record.Writable (record : Record) : Prop where
  size : record.valueSize = record.value.length
  bound : record.value.length ≤ maxRecordSize
  unmarked : record.latestForKey = false

/-- `append` は列の末尾に record を足す。 -/
theorem append_holds {v : Nat} {uuid : UUID} {record : Record} {size : Int} (h : db.Holds recs)
    (hb : db.Bounded cfg recs) (hc : db.CanCommit cfg v) (hw : record.Writable) :
    (append cfg v uuid record size db).2.Holds
      (recs ++ [(append cfg v uuid record size db).1]) := by
  have hnew : ∀ r ∈ recs, r.rev < (append cfg v uuid record size db).1.rev :=
    fun r hr => hb.lt_new h hc hr
  refine ⟨h.sorted.concat hnew, ?_, ?_, ?_⟩
  · rw [append_byRevision]
    exact ByRevision.write_entries h.sorted h.log hnew
  · intro e
    rw [append_byKeyAndRevision, ByKeyAndRevision.write, OrdMap.mem_set, h.index]
    constructor
    · rintro (rfl | ⟨⟨r, hr, rfl⟩, -⟩)
      · exact ⟨_, List.mem_append_right _ List.mem_cons_self, rfl⟩
      · exact ⟨r, List.mem_append_left _ hr, rfl⟩
    · rintro ⟨r, hr, rfl⟩
      rcases List.mem_append.mp hr with hr | hr
      · refine Or.inr ⟨⟨r, hr, rfl⟩, fun he => (hnew r hr).ne ?_⟩
        exact congrArg IndexKey.rev he
      · rw [List.mem_singleton.mp hr]
        exact Or.inl rfl
  · intro r hr
    rcases List.mem_append.mp hr with hr | hr
    · exact h.wf r hr
    · rw [List.mem_singleton.mp hr]
      exact ⟨(incrementAndGet_spec hb hc).1, hw.size, hw.bound, hw.unmarked⟩

/-- `append` の後の最新の revision は、書いた record の revision である。 -/
theorem append_getLatestRev {v : Nat} (uuid : UUID) (record : Record) (size : Int)
    (hb : db.Bounded cfg recs) (hc : db.CanCommit cfg v) :
    ((append cfg v uuid record size db).2.commit v).getLatestRev cfg =
      versionstampToInt64 (append cfg v uuid record size db).1.rev := by
  obtain ⟨hv, hv63, hseq⟩ := hc
  have hpos := hb.pos
  rw [append_rev]
  unfold Db.getLatestRev at hpos
  unfold Db.getLatestRev Db.commit Db.incrementAndGet
  simp only [append_latestRev, Db.incrementAndGet]
  cases hm : cfg.useSequentialId with
  | true =>
    have hlt := hseq hm
    simp only [hm, if_true, Option.getD_some] at hpos ⊢
    rw [int64ToVersionstamp_of_nonneg (by omega) hlt, versionstampToInt64_commitStamp (by omega)]
    omega
  | false =>
    simp only [Bool.false_eq_true, if_false]
    rw [versionstampToInt64_commitStamp hv63]

theorem append_bounded {v : Nat} {uuid : UUID} {record : Record} {size : Int}
    (hb : db.Bounded cfg recs) (hc : db.CanCommit cfg v) :
    ((append cfg v uuid record size db).2.commit v).Bounded cfg
      (recs ++ [(append cfg v uuid record size db).1]) := by
  obtain ⟨hrev, hlt⟩ := incrementAndGet_spec hb hc
  have hlatest := append_getLatestRev uuid record size hb hc
  refine ⟨?_, ?_, ?_⟩
  · intro r hr
    rw [hlatest]
    rcases List.mem_append.mp hr with hr | hr
    · exact (hb.le r hr).trans hlt.le
    · rw [List.mem_singleton.mp hr]
  · rw [hlatest]; exact hrev.pos
  · rw [hlatest]; exact hrev.lt_max

/-! ## 書き込みの transaction -/

/-- 操作 `op` が、鍵の最新の record `last` を見て書く record。`size` は `append` に渡す前の値の
大きさである。 -/
inductive WriteOp.Writes : WriteOp → (last : Option RevRecord) → Record → (size : Int) → Prop
  | createNew (key : Key) (value : Bytes) (lease : Int) :
    Writes (.create key value lease) none
      { key := key, isCreate := true, isDelete := false, lease := lease
        valueSize := value.length, value := value, createRevision := dummyVersionstamp
        prevRevision := dummyVersionstamp, writeUUID := 0, latestForKey := false } 0
  | createOver (key : Key) (value : Bytes) (lease : Int) (last : RevRecord)
      (hd : last.record.isDelete = true) :
    Writes (.create key value lease) (some last)
      { key := key, isCreate := true, isDelete := false, lease := lease
        valueSize := value.length, value := value, createRevision := dummyVersionstamp
        prevRevision := last.rev, writeUUID := 0, latestForKey := false } 0
  | update (key : Key) (value : Bytes) (revision lease : Int) (last : RevRecord)
      (hd : last.record.isDelete = false) (hr : versionstampToInt64 last.rev = revision) :
    Writes (.update key value revision lease) (some last)
      { key := key, isCreate := false, isDelete := false, lease := lease
        valueSize := value.length, value := value, createRevision := last.getCreateRevision
        prevRevision := last.rev, writeUUID := 0, latestForKey := false } last.record.valueSize
  | delete (key : Key) (revision : Int) (last : RevRecord) (hd : last.record.isDelete = false)
      (hr : revision = 0 ∨ versionstampToInt64 last.rev = revision) :
    Writes (.delete key revision) (some last)
      { key := key, isCreate := false, isDelete := true, lease := last.record.lease
        valueSize := last.record.valueSize, value := last.record.value
        createRevision := last.getCreateRevision, prevRevision := last.rev
        writeUUID := 0, latestForKey := false } 0

/-- 自分の前の試行を鍵の最新の record に認める条件。 -/
def WriteOp.Recognises : WriteOp → RevRecord → UUID → Prop
  | .create _ _ _, last, u => last.record.isCreate = true ∧ u = last.record.writeUUID
  | .update _ _ revision _, last, u =>
    last.record.isDelete = false ∧ versionstampToInt64 last.rev ≠ revision ∧
      u = last.record.writeUUID
  | .delete _ _, last, u => last.record.isDelete = true ∧ u = last.record.writeUUID

/-- 書き込みの transaction が取りうる結果。 -/
inductive WriteOp.TxCase (cfg : Config) (op : WriteOp) (last : Option RevRecord)
    (lastWriteUUID uuid : UUID) (v : Nat) (db : Db) : Except Err TxOut → Prop
  /-- record を書いた。 -/
  | wrote (record : Record) (size : Int) (result : WriteResult) (hw : op.Writes last record size)
      (hs : result.writeSuccess = true)
      (hn : ∀ l, last = some l → ¬ op.Recognises l lastWriteUUID) :
    TxCase cfg op last lastWriteUUID uuid v db
      (.ok ⟨result, some (append cfg v uuid record size db).1, (append cfg v uuid record size db).2⟩)
  /-- 前の試行の record を見つけた。 -/
  | recognised (l : RevRecord) (result : WriteResult) (hl : last = some l)
      (hr : op.Recognises l lastWriteUUID) (hs : result.writeSuccess = true) :
    TxCase cfg op last lastWriteUUID uuid v db (.ok (.readOnly result db))
  /-- 条件が合わず、何も書かずに失敗を返した。 -/
  | refused (result : WriteResult) (hs : result.writeSuccess = false)
      (hn : ∀ l, last = some l → ¬ op.Recognises l lastWriteUUID) :
    TxCase cfg op last lastWriteUUID uuid v db (.ok (.readOnly result db))
  | keyExists (hn : ∀ l, last = some l → ¬ op.Recognises l lastWriteUUID) :
    TxCase cfg op last lastWriteUUID uuid v db (.error .keyExists)
  | tooLarge (ht : op.tooLarge = true) :
    TxCase cfg op last lastWriteUUID uuid v db (.error .requestTooLarge)

/-- 自分の record `r` を書いた呼び出しが返す `KeyValue`。`Create` は返さない。 -/
def WriteOp.answer (cfg : Config) (r : RevRecord) : WriteOp → Option KeyValue
  | .create _ _ _ => none
  | .update _ _ _ _ => some (kvOf cfg r)
  | .delete _ _ => some (kvOf cfg r)

/-- 大きすぎない書き込みの transaction の結果と、client に返る答え。 -/
inductive WriteOp.TxAnswer (cfg : Config) (op : WriteOp) (last : Option RevRecord)
    (lastWriteUUID uuid : UUID) (v : Nat) (db : Db) : Except Err TxOut → Prop
  | wrote (record : Record) (size : Int) (result : WriteResult) (hw : op.Writes last record size)
      (hn : ∀ l, last = some l → ¬ op.Recognises l lastWriteUUID)
      (hres : result.getResult cfg =
        ((append cfg v uuid record size db).1.revision,
          op.answer cfg (append cfg v uuid record size db).1, true)) :
    TxAnswer cfg op last lastWriteUUID uuid v db
      (.ok ⟨result, some (append cfg v uuid record size db).1, (append cfg v uuid record size db).2⟩)
  | recognised (l : RevRecord) (result : WriteResult) (hl : last = some l)
      (hr : op.Recognises l lastWriteUUID)
      (hres : result.getResult cfg = (l.revision, op.answer cfg l, true)) :
    TxAnswer cfg op last lastWriteUUID uuid v db (.ok (.readOnly result db))
  /-- 鍵が生きていれば、その最新の `KeyValue` を返す。 -/
  | refused (result : WriteResult) (hn : ∀ l, last = some l → ¬ op.Recognises l lastWriteUUID)
      (hno : ∀ record size, ¬ op.Writes last record size)
      (hres : result.getResult cfg =
        (db.getLatestRev cfg, (last.filter RevRecord.live).map (kvOf cfg), false)) :
    TxAnswer cfg op last lastWriteUUID uuid v db (.ok (.readOnly result db))
  | keyExists (key : Key) (value : Bytes) (lease : Int) (hop : op = .create key value lease)
      (hn : ∀ l, last = some l → ¬ op.Recognises l lastWriteUUID)
      (hno : ∀ record size, ¬ op.Writes last record size) :
    TxAnswer cfg op last lastWriteUUID uuid v db (.error .keyExists)

variable {lastWriteUUID uuid : UUID} {v : Nat}

/-- 書いた record の revision は commit の後に埋められる。 -/
theorem getResult_key (cfg : Config) {w : RevRecord} (hc : w.record.isCreate = false) :
    (newModificationResultKey w.rev (some ⟨int64ToVersionstamp 0, w.record⟩) true).getResult cfg
      = (w.revision, some (kvOf cfg w), true) := by
  simp [WriteResult.getResult, newModificationResultKey, kvOf, revRecordToEvent,
    RevRecord.getCreateRevision, RevRecord.revision, hc]

theorem getResult_rev (cfg : Config) (rev : Int) (r : RevRecord) (success : Bool) :
    (newModificationResultRev rev (some r.stored) success).getResult cfg
      = (rev, some (kvOf cfg r), success) := by
  rw [← kvOf_stored]
  rfl

theorem createTx_answer (h : db.Holds recs) (key : Key) (value : Bytes) (lease : Int) :
    (WriteOp.create key value lease).TxAnswer cfg (newest RevRecord.key recs key)
      lastWriteUUID uuid v db (createTx cfg key value lease lastWriteUUID uuid v db) := by
  unfold createTx
  rw [getLast_eq h]
  cases hn : newest RevRecord.key recs key with
  | none =>
    exact .wrote _ _ _ (.createNew key value lease) (fun l hl => by cases hl) rfl
  | some last =>
    simp only [Option.map_some]
    by_cases hr : last.indexed.record.isCreate = true ∧
        lastWriteUUID = last.indexed.record.writeUUID
    · rw [if_pos hr]
      exact .recognised last _ rfl hr rfl
    · have hno : ∀ l, some last = some l → ¬ (WriteOp.create key value lease).Recognises l
          lastWriteUUID := fun l hl => by cases hl; exact hr
      rw [if_neg hr]
      cases hd : last.record.isDelete with
      | false =>
        rw [if_pos (by simp [RevRecord.indexed, hd])]
        refine .keyExists key value lease rfl hno (fun record size hw => ?_)
        cases hw with
        | createOver _ _ _ _ hd' => exact absurd (hd.symm.trans hd') (by decide)
      | true =>
        rw [if_neg (by simp [RevRecord.indexed, hd])]
        exact .wrote _ _ _ (.createOver key value lease last hd) hno rfl

theorem updateTx_answer (h : db.Holds recs) (key : Key) (value : Bytes) (revision lease : Int) :
    (WriteOp.update key value revision lease).TxAnswer cfg (newest RevRecord.key recs key)
      lastWriteUUID uuid v db (updateTx cfg key value revision lease lastWriteUUID uuid v db) := by
  unfold updateTx
  rw [getLast_eq h]
  cases hn : newest RevRecord.key recs key with
  | none =>
    exact .refused _ (fun l hl => by cases hl) (fun record size hw => by cases hw) rfl
  | some last =>
    simp only [Option.map_some]
    cases hd : last.record.isDelete with
    | true =>
      rw [if_pos (by simp [RevRecord.indexed, hd])]
      refine .refused _ (fun l hl hr => ?_) (fun record size hw => ?_) ?_
      · cases hl
        exact absurd (hd.symm.trans hr.1) (by decide)
      · cases hw with
        | update _ _ _ _ _ hd' hr => exact absurd (hd.symm.trans hd') (by decide)
      · simp [RevRecord.live, hd, WriteResult.getResult, newModificationResultRev]
    | false =>
      rw [if_neg (by simp [RevRecord.indexed, hd])]
      by_cases hrev : versionstampToInt64 last.rev = revision
      · rw [if_neg (by simpa [RevRecord.indexed] using hrev)]
        refine .wrote _ _ _ (.update key value revision lease last hd hrev) (fun l hl hr => ?_)
          (getResult_key cfg rfl)
        cases hl
        exact hr.2.1 hrev
      · rw [if_pos (by simpa [RevRecord.indexed] using hrev)]
        have hget : ByRevision.get db.byRevision last.indexed.rev = .ok (some last.stored.record) :=
          get_eq h (newest_mem hn).1
        simp only [hget]
        by_cases hu : lastWriteUUID = last.indexed.record.writeUUID
        · rw [if_pos hu]
          exact .recognised last _ rfl ⟨hd, hrev, hu⟩ (getResult_rev cfg _ last true)
        · rw [if_neg hu]
          refine .refused _ (fun l hl hr => ?_) (fun record size hw => ?_) ?_
          · cases hl
            exact hu hr.2.2
          · cases hw with
            | update _ _ _ _ _ _ hr => exact hrev hr
          · rw [Option.filter_some_pos (by simp [RevRecord.live, hd])]
            exact getResult_rev cfg _ last false

theorem deleteTx_answer (h : db.Holds recs) (key : Key) (revision : Int) :
    (WriteOp.delete key revision).TxAnswer cfg (newest RevRecord.key recs key)
      lastWriteUUID uuid v db (deleteTx cfg key revision lastWriteUUID uuid v db) := by
  unfold deleteTx
  rw [getLast_eq h]
  cases hn : newest RevRecord.key recs key with
  | none =>
    exact .refused _ (fun l hl => by cases hl) (fun record size hw => by cases hw) rfl
  | some last =>
    simp only [Option.map_some, RevRecord.indexed, get_eq h (newest_mem hn).1]
    cases hd : last.record.isDelete with
    | true =>
      rw [if_pos rfl]
      by_cases hu : lastWriteUUID = last.record.writeUUID
      · rw [if_pos hu]
        exact .recognised last _ rfl ⟨hd, hu⟩ (getResult_rev cfg _ last true)
      · rw [if_neg hu]
        refine .refused _ (fun l hl hr => ?_) (fun record size hw => ?_) ?_
        · cases hl
          exact hu hr.2
        · cases hw with
          | delete _ _ _ hd' hr => exact absurd (hd.symm.trans hd') (by decide)
        · simp [RevRecord.live, hd, WriteResult.getResult, newModificationResultRev]
    | false =>
      have hno : ∀ l, some last = some l → ¬ (WriteOp.delete key revision).Recognises l
          lastWriteUUID := by
        intro l hl hr
        cases hl
        exact absurd (hd.symm.trans hr.1) (by decide)
      rw [if_neg (by decide)]
      by_cases hrev : revision ≠ 0 ∧ versionstampToInt64 last.rev ≠ revision
      · rw [if_pos hrev]
        refine .refused _ hno (fun record size hw => ?_) ?_
        · cases hw with
          | delete _ _ _ _ hr => exact hr.elim hrev.1 hrev.2
        · rw [Option.filter_some_pos (by simp [RevRecord.live, hd])]
          exact getResult_rev cfg _ last false
      · rw [if_neg hrev]
        have hr : revision = 0 ∨ versionstampToInt64 last.rev = revision := by
          by_cases h0 : revision = 0
          · exact Or.inl h0
          · exact Or.inr (not_not.mp (fun hc => hrev ⟨h0, hc⟩))
        exact .wrote _ _ _ (.delete key revision last hd hr) hno (getResult_key cfg rfl)

/-- 大きすぎない書き込みの答え。nil の参照も log の読み損ないも起きない。 -/
theorem tx_answer (cfg : Config) (h : db.Holds recs) {op : WriteOp} (ht : op.tooLarge = false)
    (lastWriteUUID uuid : UUID) (v : Nat) :
    op.TxAnswer cfg (newest RevRecord.key recs op.key) lastWriteUUID uuid v db
      (op.tx cfg lastWriteUUID uuid v db) := by
  unfold WriteOp.tx
  rw [if_neg (by simp [ht])]
  cases op with
  | create key value lease => exact createTx_answer h key value lease
  | update key value revision lease => exact updateTx_answer h key value revision lease
  | delete key revision => exact deleteTx_answer h key revision

theorem tx_tooLarge {op : WriteOp} (ht : op.tooLarge = true) :
    op.tx cfg lastWriteUUID uuid v db = .error .requestTooLarge := if_pos ht

theorem WriteOp.TxAnswer.txCase {op : WriteOp} {last : Option RevRecord} {out : Except Err TxOut}
    (h : op.TxAnswer cfg last lastWriteUUID uuid v db out) :
    op.TxCase cfg last lastWriteUUID uuid v db out := by
  cases h with
  | wrote record size result hw hn hres =>
    exact .wrote record size result hw (congrArg (·.2.2) hres) hn
  | recognised l result hl hr hres => exact .recognised l result hl hr (congrArg (·.2.2) hres)
  | refused result hn hno hres => exact .refused result (congrArg (·.2.2) hres) hn
  | keyExists key value lease hop hn hno => exact .keyExists hn

/-- 書き込みの transaction の結果は `TxCase` のどれかである。nil の参照も
log の読み損ないも起きない。 -/
theorem tx_cases (cfg : Config) (h : db.Holds recs) (op : WriteOp) (lastWriteUUID uuid : UUID)
    (v : Nat) :
    op.TxCase cfg (newest RevRecord.key recs op.key) lastWriteUUID uuid v db
      (op.tx cfg lastWriteUUID uuid v db) := by
  cases ht : op.tooLarge with
  | true =>
    rw [tx_tooLarge ht]
    exact .tooLarge ht
  | false => exact (tx_answer cfg h ht lastWriteUUID uuid v).txCase

/-! ## 書かれる record -/

section Writes

variable {op : WriteOp} {last : Option RevRecord} {record : Record} {size : Int}

/-- 書かれる record は一つに決まる。 -/
theorem WriteOp.Writes.unique {record' : Record} {size' : Int} (h : op.Writes last record size)
    (h' : op.Writes last record' size') : record' = record ∧ size' = size := by
  cases h <;> cases h' <;> exact ⟨rfl, rfl⟩

theorem WriteOp.Writes.key_eq (h : op.Writes last record size) : record.key = op.key := by
  cases h <;> rfl

theorem WriteOp.Writes.writable (h : op.Writes last record size) (ht : op.tooLarge = false)
    (hl : ∀ l, last = some l → l.Wf) : record.Writable := by
  cases h with
  | createNew key value lease => exact ⟨rfl, by simpa [WriteOp.tooLarge] using ht, rfl⟩
  | createOver key value lease last hd => exact ⟨rfl, by simpa [WriteOp.tooLarge] using ht, rfl⟩
  | update key value revision lease last hd hr =>
    exact ⟨rfl, by simpa [WriteOp.tooLarge] using ht, rfl⟩
  | delete key revision last hd hr => exact ⟨(hl last rfl).size, (hl last rfl).bound, rfl⟩

end Writes

end KubeFdb
