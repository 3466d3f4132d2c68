import KubeFdb.Properties.Wal
import KubeFdb.Robustness.Replay
import KubeFdb.System.VersionChains

/-!
# log は参照モデルを実装する

連番の設定で書かれた log を参照モデルで再生すると、どの request も成功し、モデルの状態は driver の store の
履歴に従う。

* `Represents` — モデルの状態が、履歴の先頭部分を表すこと
* `step_requestOf` — record 一つの再生は、履歴を一つ進める
* `replayLoop_replayed` — log 全体の再生
* `wal_refines_etcd` — 書き込みだけで到達した store の log の再生
-/

namespace KubeFdb.Robustness

open Tuple

variable {V : Type} {toV : Bytes → V} {l hist : List RevRecord} {r : RevRecord} {st : EtcdState V}

/-! ## モデルの一手 -/

theorem stepTxn_put (hleases : st.leases = .empty) (hkeys : st.keyLeases = .empty)
    {cond : Condition} (hc : st.holds cond = true) (key : Key) (v : V) (ops : List (Operation V)) :
    st.stepTxn ⟨[cond], [.put ⟨key, v, 0⟩], ops⟩
      = ({ st with
          keyValues := st.keyValues.set key ⟨v, st.revision + 1, 0⟩
          revision := st.revision + 1 }, .txn ⟨false, [.zero]⟩ (st.revision + 1)) := by
  simp [EtcdState.stepTxn, EtcdState.applyOperations, EtcdState.applyOperation,
    EtcdState.detachFromOldLease, hc, hleases, hkeys]

theorem stepTxn_delete (hkeys : st.keyLeases = .empty) {cond : Condition}
    (hc : st.holds cond = true) {key : Key} (hk : (st.keyValues.get? key).isSome = true)
    (ops : List (Operation V)) :
    st.stepTxn ⟨[cond], [.delete key], ops⟩
      = ({ st with
          keyValues := st.keyValues.filter (fun k => decide (k ≠ key))
          revision := st.revision + 1 },
        .txn ⟨false, [{ OperationResult.zero with deleted := 1 }]⟩ (st.revision + 1)) := by
  simp [EtcdState.stepTxn, EtcdState.applyOperations, EtcdState.applyOperation,
    EtcdState.detachFromOldLease, hc, hkeys, hk]

/-! ## 履歴を表す状態 -/

/-- 履歴の終わりで鍵が持つ値。 -/
def valueAt (toV : Bytes → V) (l : List RevRecord) (k : Key) : Option (ValueRevision V) :=
  ((newest RevRecord.key l k).filter RevRecord.live).map
    (fun r => ⟨toV r.record.value, r.revision, 0⟩)

theorem valueAt_concat (k : Key) :
    valueAt toV (l ++ [r]) k = if k = r.key then
      (if r.record.isDelete then none else some ⟨toV r.record.value, r.revision, 0⟩)
    else valueAt toV l k := by
  unfold valueAt
  rw [newest_concat]
  by_cases hk : k = r.key
  · rw [if_pos hk.symm, if_pos hk]
    cases hd : r.record.isDelete <;> simp [RevRecord.live, hd]
  · rw [if_neg (Ne.symm hk), if_neg hk]

theorem valueAt_eq_none {k : Key} (h : (chainOf l k).getLast?.any RevRecord.live = false) :
    valueAt toV l k = none := by
  unfold valueAt
  change (newest RevRecord.key l k).any RevRecord.live = false at h
  cases hn : newest RevRecord.key l k with
  | none => rfl
  | some last =>
    rw [hn, Option.any_some] at h
    simp [h]

theorem valueAt_eq_some {k : Key} {last : RevRecord} (h : (chainOf l k).getLast? = some last)
    (hl : last.live = true) : valueAt toV l k = some ⟨toV last.record.value, last.revision, 0⟩ := by
  unfold valueAt
  rw [show newest RevRecord.key l k = some last from h]
  simp [hl]

/-- モデルの状態が履歴 `l` の終わりを表すこと。 -/
structure Represents (toV : Bytes → V) (l : List RevRecord) (st : EtcdState V) : Prop where
  revision : st.revision = l.length + 1
  keyValues : ∀ k, st.keyValues.get? k = valueAt toV l k
  keyLeases : st.keyLeases = .empty
  leases : st.leases = .empty

theorem fresh_represents (toV : Bytes → V) : Represents toV [] freshEtcdState :=
  ⟨rfl, fun _ => rfl, rfl, rfl⟩

/-- record の event。 -/
def eventOf (toV : Bytes → V) (r : RevRecord) : PersistedEvent V where
  type := if r.record.isDelete then .delete else .put
  key := r.key
  value := if r.record.isDelete then none else some (toV r.record.value)
  revision := r.revision
  isCreate := r.record.isCreate

/-- 値を書く record を再生した状態。 -/
theorem Represents.put (h : Represents toV l st) (hrev : r.revision = l.length + 2)
    (hd : r.record.isDelete = false) :
    Represents toV (l ++ [r]) { st with
      keyValues := st.keyValues.set r.key ⟨toV r.record.value, st.revision + 1, 0⟩
      revision := st.revision + 1 } := by
  refine ⟨?_, fun k => ?_, h.keyLeases, h.leases⟩
  · show st.revision + 1 = _
    rw [h.revision, List.length_append]
    rfl
  · show (st.keyValues.set r.key _).get? k = _
    rw [valueAt_concat, hd]
    by_cases hk : k = r.key
    · rw [if_pos hk, hk, OrdMap.get?_set_self, h.revision, hrev]
      rfl
    · rw [if_neg hk, OrdMap.get?_set_of_ne hk, h.keyValues]

/-- tombstone を再生した状態。 -/
theorem Represents.delete (h : Represents toV l st) (hd : r.record.isDelete = true) :
    Represents toV (l ++ [r]) { st with
      keyValues := st.keyValues.filter (fun k => decide (k ≠ r.key))
      revision := st.revision + 1 } := by
  refine ⟨?_, fun k => ?_, h.keyLeases, h.leases⟩
  · show st.revision + 1 = _
    rw [h.revision, List.length_append]
    rfl
  · show (st.keyValues.filter _).get? k = _
    rw [OrdMap.get?_filter, valueAt_concat, h.keyValues, hd]
    by_cases hk : k = r.key <;> simp [hk]

/-- 履歴に続いて書かれた record の再生は成功し、状態を一つ進め、その record の event を残す。 -/
theorem step_requestOf (h : Represents toV l st) (hch : ChainStep (chainOf l r.key) r)
    (hw : ∀ x ∈ l, x.Wf) (hrev : r.revision = l.length + 2) :
    ∃ st' results, st.step (requestOf toV r) = (st', .txn ⟨false, results⟩ st'.revision) ∧
      Represents toV (l ++ [r]) st' ∧
      toWatchEvents st (requestOf toV r) (.txn ⟨false, results⟩ st'.revision) = [eventOf toV r] := by
  have hrev' : st.revision + 1 = r.revision := by rw [h.revision, hrev]; rfl
  have hget := h.keyValues r.key
  cases hc : r.record.isCreate with
  | true =>
    -- 生きていない鍵の `ModRevision` は 0 である
    obtain ⟨hd, hdead⟩ := hch.create hc
    have hnone : st.keyValues.get? r.key = none := by
      rw [hget, valueAt_eq_none hdead]
    have hreq : requestOf toV r = create toV r.key r.record.value := by simp [requestOf, hc]
    rw [hreq]
    refine ⟨_, _, stepTxn_put h.leases h.keyLeases (by simp [EtcdState.holds, hnone]) _ _ _,
      h.put hrev hd, ?_⟩
    simp [toWatchEvents, create, operationEvent, eventOf, hnone, hc, hd, hrev']
  | false =>
    -- 更新と削除の条件は、鍵の最後の record の revision である
    obtain ⟨last, hlast, hlive, -⟩ := hch.other hc
    have hprev : versionstampToInt64 r.record.prevRevision = last.revision := by
      rw [hch.prev, hlast]
      rfl
    have hsome : st.keyValues.get? r.key = some ⟨toV last.record.value, last.revision, 0⟩ := by
      rw [hget, valueAt_eq_some hlast hlive]
    have hcond : st.holds ⟨r.key, last.revision, 0⟩ = true := by simp [EtcdState.holds, hsome]
    cases hd : r.record.isDelete with
    | true =>
      have hpos : last.revision ≠ 0 :=
        (hw last (List.mem_of_mem_filter (List.mem_of_getLast? hlast))).rev.pos.ne'
      have hreq : requestOf toV r = delete r.key last.revision := by
        simp [requestOf, hc, hd, hprev]
      rw [hreq, delete, if_pos hpos]
      refine ⟨_, _, stepTxn_delete h.keyLeases hcond (by rw [hsome]; rfl) _, h.delete hd, ?_⟩
      simp [toWatchEvents, operationEvent, eventOf, hc, hd, hrev']
    | false =>
      have hreq : requestOf toV r = update toV r.key r.record.value last.revision := by
        simp [requestOf, hc, hd, hprev]
      rw [hreq]
      refine ⟨_, _, stepTxn_put h.leases h.keyLeases hcond _ _ _, h.put hrev hd, ?_⟩
      simp [toWatchEvents, update, operationEvent, eventOf, hsome, hc, hd, hrev']

/-! ## 再生 -/

/-- 履歴に続いて、次の番号で書かれた record。 -/
structure NextRecord (l : List RevRecord) (r : RevRecord) : Prop where
  chain : ChainStep (chainOf l r.key) r
  wf : r.Wf
  revision : r.revision = l.length + 2

/-- 空から順に、連番で書かれた履歴。 -/
abbrev Sequential (hist : List RevRecord) : Prop := EachAfter NextRecord hist

theorem sequential_wf (h : Sequential hist) : ∀ r ∈ hist, r.Wf := by
  induction h using EachAfter.concatRec with
  | nil => exact fun r hr => absurd hr List.not_mem_nil
  | concat l r h hr ih =>
    intro x hx
    rcases List.mem_append.mp hx with hx | hx
    · exact ih x hx
    · rw [List.mem_singleton.mp hx]
      exact hr.wf

/-- revision `R` までの履歴は、番号の数だけの先頭部分である。 -/
theorem atMost_sequential (h : Sequential hist) {R : Int} (hR : 0 ≤ R) :
    atMost RevRecord.revision hist R = hist.take (R.toNat - 1) := by
  induction h using EachAfter.concatRec with
  | nil => simp [atMost]
  | concat l r h hr ih =>
    have hrev := hr.revision
    unfold atMost at ih ⊢
    rw [List.filter_append, ih, List.filter_singleton]
    by_cases hle : r.revision ≤ R
    · rw [decide_eq_true hle, List.take_of_length_le (by omega), List.take_of_length_le (by
        rw [List.length_append, List.length_singleton]; omega)]
      rfl
    · rw [decide_eq_false hle, List.take_append_of_le_length (by omega)]
      exact List.append_nil _

/-- 履歴 `hist` の record を再生し終えたこと。 -/
structure Replayed (toV : Bytes → V) (hist : List RevRecord) (acc : EtcdState V × EtcdReplay V) :
    Prop where
  state : Represents toV hist acc.1
  events : acc.2.events = hist.map (eventOf toV)
  length : acc.2.revisionToEtcdState.length = hist.length + 2
  /-- revision の状態。添字 0 は revision 1 と同じ状態である。 -/
  states : ∀ n ≤ hist.length + 1, ∃ st, acc.2.revisionToEtcdState[n]? = some st ∧
    Represents toV (hist.take (n - 1)) st

theorem Replayed.concat {acc : EtcdState V × EtcdReplay V} (h : Replayed toV hist acc)
    (hw : ∀ x ∈ hist, x.Wf) (hr : NextRecord hist r) :
    Replayed toV (hist ++ [r]) (replayStep acc (requestOf toV r)) := by
  obtain ⟨st', results, hstep, hrep, hev⟩ := step_requestOf h.state hr.chain hw hr.revision
  have hne : acc.1.revision ≠ st'.revision := by
    rw [h.state.revision, hrep.revision, List.length_append, List.length_singleton]
    omega
  have heq : replayStep acc (requestOf toV r)
      = (st', ⟨acc.2.revisionToEtcdState ++ [st'], acc.2.events ++ [eventOf toV r]⟩) := by
    simp [replayStep, hstep, hev, hne]
  rw [heq]
  refine ⟨hrep, ?_, ?_, fun n hn => ?_⟩
  · show acc.2.events ++ [eventOf toV r] = _
    rw [h.events, List.map_append]
    rfl
  · show (acc.2.revisionToEtcdState ++ [st']).length = _
    rw [List.length_append, List.length_append, h.length]
    simp only [List.length_singleton]
  · rw [List.length_append, List.length_singleton] at hn
    show ∃ st, (acc.2.revisionToEtcdState ++ [st'])[n]? = some st ∧ _
    by_cases hlast : n ≤ hist.length + 1
    · obtain ⟨st, hst, hr⟩ := h.states n hlast
      refine ⟨st, ?_, ?_⟩
      · rw [List.getElem?_append_left (by rw [h.length]; omega)]
        exact hst
      · rw [List.take_append_of_le_length (by omega)]
        exact hr
    · -- 新しい状態は、最後の revision のものである
      obtain rfl : n = hist.length + 2 := by omega
      refine ⟨st', ?_, ?_⟩
      · rw [← h.length, List.getElem?_concat_length]
      · rw [List.take_of_length_le (by simp)]
        exact hrep

/-- **連番で書かれた履歴の再生。** -/
theorem replayLoop_replayed (toV : Bytes → V) (h : Sequential hist) :
    Replayed toV hist (replayLoop (hist.map (requestOf toV))) := by
  induction h using EachAfter.concatRec with
  | nil =>
    refine ⟨fresh_represents toV, rfl, rfl, fun n hn => ⟨freshEtcdState, ?_, ?_⟩⟩
    · obtain rfl | rfl : n = 0 ∨ n = 1 := by simp only [List.length_nil] at hn; omega
      · rfl
      · rfl
    · rw [List.take_nil]
      exact fresh_represents toV
  | concat l r h hr ih =>
    rw [List.map_append, replayLoop, List.foldl_append]
    exact ih.concat (sequential_wf h) hr

/-! ## 連番の run -/

variable {cfg : Config} {s s' : Store} {recs' : List RevRecord}

/-- 連番の設定で書かれた record は、次の番号を持つ。 -/
theorem append_revision_of_sequential (hseq : cfg.useSequentialId = true) {db : Db}
    (hb : db.Bounded cfg l) {v : Nat} (hc : db.CanCommit cfg v) (uuid : UUID) (record : Record)
    (size : Int) :
    (append cfg v uuid record size db).1.revision = db.getLatestRev cfg + 1 := by
  have hpos := hb.pos
  have hlt := hc.2.2 hseq
  unfold Db.getLatestRev at hpos ⊢
  rw [if_pos hseq] at hpos ⊢
  rw [RevRecord.revision, append_rev, Db.incrementAndGet, if_pos hseq]
  show versionstampToInt64 (int64ToVersionstamp _) = _
  rw [int64ToVersionstamp_of_nonneg (by omega) hlt, versionstampToInt64_commitStamp (by omega)]
  omega

/-- 連番の run の履歴。最新の revision は record の数で決まる。 -/
theorem written_sequential (hseq : cfg.useSequentialId = true) (h : s.Written cfg) :
    Sequential s.committed ∧ s.db.getLatestRev cfg = s.committed.length + 1 := by
  obtain ⟨as, hclient, hr⟩ := h
  refine (run_invariant_of (fun _ a => a.isClient = true)
    (P := fun s => Store.Inv cfg s s.committed ∧ Sequential s.committed ∧
      s.db.getLatestRev cfg = s.committed.length + 1) ?_
    ⟨Store.init_inv cfg, eachAfter_nil, by simp [Db.getLatestRev, hseq, Store.init, Db.empty]⟩
    (stepsMeet_of_forall hclient) hr).2
  rintro s a s' ⟨h, hsq, hlatest⟩ hc hs
  obtain ⟨recs', he, h'⟩ := Store.inv_step h hs
  refine ⟨he.committed_eq hc ▸ h', ?_⟩
  cases he with
  | idle _ ha v hv hv63 calls hcalls =>
    refine ⟨hsq, ?_⟩
    rw [← hlatest]
    simp [Db.getLatestRev, Db.commit, hseq]
  | wrote op lastWriteUUID uuid v record size hcan ht hw =>
    have hrev := append_revision_of_sequential hseq h.bounded hcan uuid record size
    have hkey : (append cfg v uuid record size s.db).1.key = op.key := hw.key_eq
    refine ⟨hsq.concat ⟨?_, ?_, by rw [hrev, hlatest]; omega⟩, ?_⟩
    · rw [hkey]
      exact WriteOp.Writes.chainStep hw (append_record cfg v uuid record size s.db)
    · exact h'.tracks.wf _ (List.mem_append_right _ List.mem_cons_self)
    · rw [append_getLatestRev uuid record size h.bounded hcan, List.length_append]
      show (append cfg v uuid record size s.db).1.revision = _
      rw [hrev, hlatest]
      simp
  | compacted i n v known endRev c c' db' begin_ hcan hi hrun hb hbatch heq => cases hc

/-- 連番で書かれた履歴の `i` 番目の request の再生。 -/
theorem replayLoop_step (toV : Bytes → V) (h : Sequential hist) {i : Nat} (hi : hist[i]? = some r) :
    ∃ results, ((replayLoop ((hist.take i).map (requestOf toV))).1.step (requestOf toV r))
        = ((replayLoop ((hist.take (i + 1)).map (requestOf toV))).1,
          .txn ⟨false, results⟩ r.revision) ∧
      (replayLoop ((hist.take (i + 1)).map (requestOf toV))).1.revision = r.revision ∧
      r.revision = i + 2 := by
  obtain ⟨hlt, rfl⟩ := List.getElem?_eq_some_iff.mp hi
  have htake : hist.take (i + 1) = hist.take i ++ [hist[i]] := (List.take_append_getElem hlt).symm
  have hlen : (hist.take i).length = i := List.length_take_of_le hlt.le
  obtain ⟨hpre, hnext⟩ := eachAfter_concat_iff.mp (htake ▸ h.of_prefix (List.take_prefix (i + 1) hist))
  have hrev := hnext.revision
  rw [hlen] at hrev
  obtain ⟨st', results, hstep, hrep, -⟩ := step_requestOf (replayLoop_replayed toV hpre).state
    hnext.chain (sequential_wf hpre) hnext.revision
  have hst : (replayLoop ((hist.take (i + 1)).map (requestOf toV))).1 = st' := by
    rw [htake, List.map_append, replayLoop, List.foldl_append]
    exact congrArg Prod.fst hstep
  have hst' : st'.revision = hist[i].revision := by
    rw [hrep.revision, hrev, List.length_append, hlen, List.length_singleton]
    omega
  rw [hst, ← hst']
  exact ⟨results, hstep, rfl, hst'.trans hrev⟩

/-- **log は参照モデルを実装する。** 連番の設定の書き込みで到達した store の log を request に直して再生すると、
どの request も成功の枝を通り、`i` 番目の request の後のモデルの revision は `i` 番目の record の revision で
ある。どの revision の状態も、その revision の store で生きている鍵と値をちょうど持ち、event は log の record に
並びまで一致する。 -/
theorem wal_refines_etcd (cfg : Config) (hseq : cfg.useSequentialId = true) (s : Store)
    (h : s.Written cfg) (toValueOrHash : Bytes → V) (splits : Nat → Nat) :
    s.db.Holds s.committed ∧
    ∃ requests, walToEtcdRequests toValueOrHash splits s.db = .ok requests ∧
      requests.length = s.committed.length ∧
      (∀ (i : Nat) (r : RevRecord), s.committed[i]? = some r → ∃ request results,
        requests[i]? = some request ∧
        (replayLoop (requests.take i)).1.step request
          = ((replayLoop (requests.take (i + 1))).1, .txn ⟨false, results⟩ r.revision) ∧
        (replayLoop (requests.take (i + 1))).1.revision = r.revision ∧ r.revision = i + 2) ∧
      (∀ R : Int, 0 ≤ R → R ≤ s.db.getLatestRev cfg → ∃ st,
        (newReplay requests).stateForRevision R = .ok st ∧
        ∀ k, st.keyValues.get? k
          = valueAt toValueOrHash (atMost RevRecord.revision s.committed R) k) ∧
      (newReplay requests).events = s.committed.map (eventOf toValueOrHash) := by
  have hh := h.inv.1.tracks.holds
  obtain ⟨hsq, hlatest⟩ := written_sequential hseq h
  have hrep := replayLoop_replayed toValueOrHash hsq
  refine ⟨hh, s.committed.map (requestOf toValueOrHash), ?_, List.length_map _, ?_, ?_, hrep.events⟩
  · unfold walToEtcdRequests
    rw [readWAL_eq hh]
    show Except.ok ((s.committed.map RevRecord.stored).map (requestOf toValueOrHash)) = _
    rw [List.map_map]
    rfl
  · intro i r hi
    obtain ⟨results, hstep, hrev⟩ := replayLoop_step toValueOrHash hsq hi
    refine ⟨requestOf toValueOrHash r, results, by rw [List.getElem?_map, hi]; rfl, ?_⟩
    rw [← List.map_take, ← List.map_take]
    exact ⟨hstep, hrev⟩
  · intro R h0 hR
    obtain ⟨st, hst, hr⟩ := hrep.states R.toNat (by omega)
    refine ⟨st, ?_, fun k => ?_⟩
    · unfold EtcdReplay.stateForRevision newReplay
      rw [if_neg (not_lt.mpr h0), hst]
    · rw [hr.keyValues, atMost_sequential hsq h0]

/-- 連番の設定。 -/
def sequentialConfig : Config := { Config.default with useSequentialId := true }

/-- 作って更新し、消して作り直す run。失敗する更新も混ざる。 -/
def sequentialRun : List StoreLabel :=
  [.write (.create [47, 97] [1] 0) 0 1 2, .write (.update [47, 97] [2] 2 0) 0 2 3,
    .write (.update [47, 97] [3] 2 0) 0 3 4, .write (.delete [47, 97] 3) 0 4 5,
    .write (.create [47, 97] [4] 0) 0 5 6]

/-- 消して作り直す run の log の再生。 -/
theorem wal_refines_etcd_of_recreated :
    ∃ s, runSteps (Store.step sequentialConfig) .init sequentialRun = some s ∧
      s.committed.map RevRecord.revision = [2, 3, 4, 5] ∧
      ∃ requests, walToEtcdRequests id (fun _ => 0) s.db = .ok requests ∧
        (newReplay requests).events = s.committed.map (eventOf id) := by
  have h : (runSteps (Store.step sequentialConfig) .init sequentialRun).any (fun s =>
      decide (s.committed.map RevRecord.revision = [2, 3, 4, 5])) = true := by decide +kernel
  obtain ⟨s, hs, h⟩ := exists_of_any_decide h
  obtain ⟨-, requests, hreq, -, -, -, hev⟩ :=
    wal_refines_etcd sequentialConfig rfl s ⟨_, by decide, hs⟩ id (fun _ => 0)
  exact ⟨s, hs, h, requests, hreq, hev⟩

end KubeFdb.Robustness
