import KubeFdb.Robustness.Pipeline
import KubeFdb.Robustness.ReplayEvents

/-!
# revision を指定した読み出しの検査

`test/robustness/validate/operations.go` の `validateSerializableOperations`。revision を指定した読み出しの答えを、log の
再生のその revision の状態と比べる。

* `serializable_read_exact` — panic しないどの log の再生でも、負でない revision の検査は、その revision の状態と比べる。
  panic するのは、負の `limit` で範囲を読むときに限る
* `driver_passes_serializable` — 連番の設定では、revision を指定した一覧は、ほかの書き込みがどう挟まっても検査を通る
-/

namespace KubeFdb.Robustness

open Tuple

variable {V O : Type}

/-! ## 検査 -/

inductive SerializableErr where
  | respNotMatched
  | futureRevRespRequested
deriving DecidableEq, Repr

inductive SerializablePanic where
  | indexOutOfRange
  | sliceBounds
  | nilDereference
deriving DecidableEq, Repr

/-- kine は version を持たないので、比べる前に 0 にする。 -/
def RangeResponse.unversioned (response : RangeResponse V) : RangeResponse V :=
  { response with kvs := response.kvs.map (fun kv => (kv.1, { kv.2 with version := 0 })) }

theorem newReplay?_eq_some {requests : List (Request V)} {replay : EtcdReplay V}
    (h : newReplay? requests = some replay) : newReplay requests = replay := by
  unfold newReplay? at h
  split at h
  · cases h
  · exact Option.some.inj h

theorem panics_txn (st : EtcdState V) {request : TxnRequest V}
    (hsuccess : request.operationsOnSuccess.any Operation.panics = false)
    (hfailure : request.operationsOnFailure.any Operation.panics = false) :
    st.panics (.txn request) = false := by
  simp only [EtcdState.panics]
  split
  · exact hfailure
  · exact hsuccess

/-- record の request は、範囲を読まない。 -/
theorem panics_requestOf (st : EtcdState V) (toV : Bytes → V) (r : RevRecord) :
    st.panics (requestOf toV r) = false := by
  unfold requestOf create update delete
  split
  · exact panics_txn st rfl rfl
  · split
    · split <;> exact panics_txn st rfl rfl
    · exact panics_txn st rfl rfl

/-- driver の log の再生は panic しない。 -/
theorem newReplay?_requestOf (toV : Bytes → V) (hist : List RevRecord) :
    newReplay? (hist.map (requestOf toV)) = some (newReplay (hist.map (requestOf toV))) := by
  have hquiet : ∀ st : EtcdState V, st.replayPanics (hist.map (requestOf toV)) = false := by
    induction hist with
    | nil => exact fun _ => rfl
    | cons r hist ih =>
      intro st
      rw [List.map_cons, EtcdState.replayPanics, panics_requestOf, ih, Bool.or_false]
  unfold newReplay?
  rw [hquiet, if_neg Bool.false_ne_true]

/-- 再生の revision `R` の状態。 -/
theorem stateForRevision_newReplay (requests : List (Request V)) {R : Int} (hR : 0 ≤ R) :
    ((replayLoop requests).1.revision < R ∧
      (newReplay requests).stateForRevision R = .error .notObserved) ∨
    (R ≤ (replayLoop requests).1.revision ∧ ∃ st,
      (newReplay requests).stateForRevision R = .ok st ∧ (R = 0 ∨ R = st.revision) ∧
        st.keyValues = OrdMap.empty.updateAll
          ((atMost PersistedEvent.revision (newReplay requests).events R).map
            PersistedEvent.change)) := by
  have hr := recounted_replayLoop requests
  have hlength := hr.length
  unfold EtcdReplay.stateForRevision
  rw [if_neg (not_lt.mpr hR)]
  cases hst : (newReplay requests).revisionToEtcdState[R.toNat]? with
  | none =>
    have hout := List.getElem?_eq_none_iff.mp hst
    change (replayLoop requests).2.revisionToEtcdState.length ≤ R.toNat at hout
    exact Or.inl ⟨by omega, rfl⟩
  | some st =>
    have hin := (List.getElem?_eq_some_iff.mp hst).1
    change R.toNat < (replayLoop requests).2.revisionToEtcdState.length at hin
    obtain ⟨hrev, hkv⟩ := hr.states R.toNat st hst
    rw [Int.toNat_of_nonneg hR] at hkv
    exact Or.inr ⟨by omega, st, rfl, by omega, hkv⟩

section

variable [DecidableEq V]

/-- `validateSerializableRead`。`rangeOf` は応答の `Range` である。error のある応答は先に除かれるので、
`ErrEtcdFutureRev` を調べる枝には来ない。 -/
def validateSerializableRead (rangeOf : O → Option (RangeResponse V)) (replay : EtcdReplay V)
    (request : Request V) : Observed O → Except SerializablePanic (Option SerializableErr)
  | .failed => .ok none
  | .persisted _ => .ok none
  | .response o =>
    match request with
    | .range _ revision =>
      match replay.stateForRevision revision with
      | .error .indexOutOfRange => .error .indexOutOfRange
      | .error .notObserved => .ok (some .futureRevRespRequested)
      | .ok state =>
        if state.panics request then .error .sliceBounds
        else
          match (state.step request).2 with
          | .range expect _ =>
            if rangeOf o = some expect.unversioned then .ok none else .ok (some .respNotMatched)
          | _ => .error .nilDereference
    | _ => .error .nilDereference

/-- `validateSerializableOperationsError`。最後の違反を返す。 -/
def validateSerializableOperationsError (rangeOf : O → Option (RangeResponse V))
    (operations : List (HistoryOp V O)) (replay : EtcdReplay V) :
    Except SerializablePanic (Option SerializableErr) :=
  operations.foldlM (fun lastErr read =>
    (validateSerializableRead rangeOf replay read.input read.output).map (fun err =>
      err.or lastErr)) none

/-- **検査は、その revision までの event を重ねた状態と比べる。** 再生が panic しないどの log でも、負でない revision の
検査は、答えが、その revision までの watch の event を重ねた写像の範囲であるときに限って通る。再生より新しい revision の
答えは、中身によらず違反である。panic するのは、再生にある revision の範囲を負の `limit` で読むときに限る。 -/
theorem serializable_read_exact (rangeOf : O → Option (RangeResponse V))
    {requests : List (Request V)} {replay : EtcdReplay V} (hreplay : newReplay? requests = some replay)
    (options : RangeOptions) {R : Int} (hR : 0 ≤ R) (o : O) :
    validateSerializableRead rangeOf replay (.range options R) (.response o)
      = if (replayLoop requests).1.revision < R then .ok (some .futureRevRespRequested)
        else if options.end_ ≠ [] ∧ options.limit < 0 then .error .sliceBounds
        else if rangeOf o = some (EtcdState.getRange
            { (freshEtcdState : EtcdState V) with
              keyValues := OrdMap.empty.updateAll
                ((atMost PersistedEvent.revision replay.events R).map
                  PersistedEvent.change) } options).unversioned then .ok none
        else .ok (some .respNotMatched) := by
  obtain rfl := newReplay?_eq_some hreplay
  rcases stateForRevision_newReplay requests hR with ⟨hlt, hst⟩ | ⟨hle, st, hst, hrev, hkv⟩
  · rw [if_pos hlt]
    simp only [validateSerializableRead, hst]
  · rw [if_neg (not_lt.mpr hle)]
    have hrange : st.getRange options = EtcdState.getRange
        { (freshEtcdState : EtcdState V) with keyValues := st.keyValues } options := rfl
    have hpanics : st.panics (.range options R) = true ↔ options.end_ ≠ [] ∧ options.limit < 0 := by
      simp [EtcdState.panics, RangeOptions.panics, hrev]
    simp only [validateSerializableRead, hst, hpanics, EtcdState.step, EtcdState.stepRange,
      if_pos hrev, hrange, hkv]

end

/-- lease の鍵がまだある revision 3 の答えと、再生より新しい revision 5 の答えと、負の `limit` の読み出し。 -/
theorem serializable_read_exact_of_revoke :
    ∃ replay, newReplay? leasedLog = some replay ∧
      validateSerializableRead id replay (.range ⟨[1], [2], 0⟩ 3)
        (.response (some ⟨[([1, 1], ⟨7, 2, 0⟩), ([1, 2], ⟨9, 3, 0⟩)], 2⟩)) = .ok none ∧
      validateSerializableRead id replay (.range ⟨[1], [2], 0⟩ 5)
        (.response (some ⟨[([1, 2], ⟨9, 3, 0⟩)], 1⟩)) = .ok (some .futureRevRespRequested) ∧
      validateSerializableRead id replay (.range ⟨[1], [2], -1⟩ 3) (.response none)
        = .error .sliceBounds := by
  have hreplay : newReplay? leasedLog = some (newReplay leasedLog) := rfl
  refine ⟨_, hreplay, ?_⟩
  rw [serializable_read_exact id hreplay ⟨[1], [2], 0⟩ (by decide),
    serializable_read_exact id hreplay ⟨[1], [2], 0⟩ (by decide),
    serializable_read_exact id hreplay ⟨[1], [2], -1⟩ (by decide)]
  decide +kernel

/-! ## driver の一覧 -/

/-- 一覧の答えの `Range` への仮定。答えを直す kine と etcd の client は、このリポジトリにない。 -/
def ShowsLists (toV : Bytes → V) (rangeOf : Reply → Option (RangeResponse V)) : Prop :=
  ∀ rev kvs, rangeOf (.listed rev kvs) = some ⟨kvs.map (entryOf toV), kvs.length⟩

theorem range_of_isSerializable {isRead : Request V → Bool} {request : Request V}
    {response : Observed O} (h : isSerializable isRead request response = true) :
    ∃ options revision, request = .range options revision ∧ revision ≠ 0 := by
  unfold isSerializable at h
  split at h
  · cases h
  · cases request with
    | range options revision => exact ⟨options, revision, rfl, of_decide_eq_true h⟩
    | _ => cases h

variable {cfg : Config} {s : Recorder}

section

variable [DecidableEq V] {toV : Bytes → V} {rangeOf : Reply → Option (RangeResponse V)}
  {hist : List RevRecord}

/-- revision を指定した一覧の答えは、再生の答えである。 -/
theorem validateSerializableRead_listed (hrange : ShowsLists toV rangeOf) (h : Sequential hist)
    (hs : SortedBy RevRecord.rev hist) {prefix_ : Key} {R : Int} (hpos : 0 < R) (hR : R ≤ hist.length + 1) {live : List RevRecord}
    (hlive : SortedBy RevRecord.key live)
    (hmem : ∀ r, r ∈ live ↔ LiveAt 0 (atMost RevRecord.revision hist R) r ∧
      inListRange prefix_ prefix_ r.key = true) (rev : Int) :
    validateSerializableRead rangeOf (newReplay (hist.map (requestOf toV)))
      (.range (listOptions prefix_) R) (.response (.listed rev (live.map (kvOf cfg)))) = .ok none := by
  have hrep := replayLoop_replayed toV h
  obtain ⟨st, hst, hrepr⟩ := hrep.states R.toNat (by omega)
  rw [← atMost_sequential h hpos.le] at hrepr
  have hrev : R = 0 ∨ R = st.revision := by
    rw [hrepr.revision, atMost_sequential h hpos.le, List.length_take]
    omega
  have hstate : (newReplay (hist.map (requestOf toV))).stateForRevision R = .ok st := by
    unfold EtcdReplay.stateForRevision newReplay
    rw [if_neg (not_lt.mpr hpos.le), hst]
  have hpanics : st.panics (.range (listOptions prefix_) R) = false := by
    simp [EtcdState.panics, RangeOptions.panics, listOptions]
  simp only [validateSerializableRead, hstate, hpanics, Bool.false_eq_true, if_false, EtcdState.step,
    EtcdState.stepRange, if_pos hrev, getRange_listed hrepr (hs.filter _) hlive hmem cfg]
  rw [if_pos]
  simp [hrange _ _, RangeResponse.unversioned, entryOf, Function.comp_def]

theorem validateSerializableOperationsError_eq_ok_none {rangeOf : O → Option (RangeResponse V)}
    {replay : EtcdReplay V} {operations : List (HistoryOp V O)}
    (h : ∀ op ∈ operations,
      validateSerializableRead rangeOf replay op.input op.output = .ok none) :
    validateSerializableOperationsError rangeOf operations replay = .ok none := by
  obtain ⟨err, hfold, rfl⟩ : ∃ err,
      validateSerializableOperationsError rangeOf operations replay = .ok err ∧ err = none := by
    refine foldlM_ok_of_forall (fun err => err = none)
      (fun err herr op hop => ⟨none, ?_, rfl⟩) rfl
    rw [h op hop, herr]
    rfl
  exact hfold

/-- 記録された呼び出しのうち、revision を指定した読み出しは検査を通る。 -/
theorem Recorder.Inv.validateSerializableRead (hrange : ShowsLists toV rangeOf)
    (hseq : cfg.useSequentialId = true) (h : s.Inv cfg) {o : Recorded} (ho : o ∈ s.ops) {options : RangeOptions}
    {R : Int} (hreq : o.progress.request toV = .range options R) (hne : R ≠ 0) :
    Robustness.validateSerializableRead rangeOf
      (newReplay (s.store.committed.map (requestOf toV))) (.range options R) o.output
        = .ok none := by
  obtain ⟨hsq, hlatest⟩ := written_sequential hseq h.written
  rcases output_cases o with hout | ⟨t, reply, hret, hout⟩
  · rw [hout]
    rfl
  · cases hp : o.progress with
    | write c =>
      obtain ⟨request, htxn, -⟩ := requestFor_txn toV c.op
      rw [hp] at hreq
      cases htxn.symm.trans hreq
    | list prefix_ revision range call snapshot =>
      rw [hp] at hreq
      cases hreq
      obtain ⟨hscan, hreply⟩ := h.lists o ho prefix_ R range call snapshot hp
      obtain ⟨st, live, -, hb, hle, rfl, hsorted, hmem⟩ := hscan.answer (hreply _ hret)
      have hpos : 0 < R := lt_of_le_of_ne hscan.nonneg hne.symm
      rw [hout]
      rw [inWindowAt_eq_listedAt hle, listedAt, if_neg hne] at hmem
      exact validateSerializableRead_listed hrange hsq h.written.inv.1.tracks.sorted hpos
        (hlatest ▸ hle.trans hb.latest_le) hsorted hmem _

/-- 記録された履歴から取り出した読み出しは、どれも検査を通る。 -/
theorem Recorder.Inv.serializable_ok (hrange : ShowsLists toV rangeOf)
    (hseq : cfg.useSequentialId = true) (h : s.Inv cfg) (isRead : Request V → Bool) {reports : List (ClientReport V Reply)}
    (hreports : (issued reports).Perm (s.history toV)) :
    validateSerializableOperationsError rangeOf
      (prepareAndCategorizeOperations isRead reports).serializable
      (newReplay (s.store.committed.map (requestOf toV))) = .ok none := by
  refine validateSerializableOperationsError_eq_ok_none fun op hop => ?_
  rw [prepare_serializable] at hop
  obtain ⟨hissued, hser⟩ := List.mem_filter.mp hop
  obtain ⟨o, ho, rfl⟩ := List.mem_map.mp (hreports.subset hissued)
  obtain ⟨options, R, hreq, hne⟩ := range_of_isSerializable hser
  have hreq : o.progress.request toV = .range options R := hreq
  show Robustness.validateSerializableRead _ _ (o.progress.request toV) o.output = _
  rw [hreq]
  exact h.validateSerializableRead hrange hseq ho hreq hne

end

/-- 一つ目の一覧の途中で書き換えと削除が挟まり、二つ目の一覧がまだない revision を求める run。 -/
def pinnedRun : List RecorderLabel :=
  [.write 1 (.create [47, 97] [1] 0) 1, .attempt 0 2 2 .committed,
    .write 1 (.create [47, 98] [2] 0) 3, .attempt 1 4 3 .committed, .list 2 [47] 3, .list 3 [47] 9,
    .batch 2 0, .batch 3 5, .write 1 (.update [47, 98] [3] 3 0) 5, .attempt 4 6 4 .committed,
    .store (.startCompact 4), .write 1 (.delete [47, 97] 2) 7, .attempt 5 8 5 .committed,
    .batch 2 5]

/-- 一覧の答えだけが `Range` を持つ。 -/
def Reply.range (toV : Bytes → V) : Reply → Option (RangeResponse V)
  | .listed _ kvs => some ⟨kvs.map (entryOf toV), kvs.length⟩
  | _ => none

end KubeFdb.Robustness
