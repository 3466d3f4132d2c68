import KubeFdb.Properties.LiveKeys
import KubeFdb.Properties.Views
import KubeFdb.Robustness.Refinement
import KubeFdb.System.ReadHistory

/-!
# driver の答えと参照モデルの応答

driver の一つの呼び出しを、同じ request を受けた参照モデルの一手と比べる。履歴を表す状態から始めると、

* 書いた呼び出しの request は、モデルでも書く（`step_wrote`）
* 断られた呼び出しの request は、モデルの状態を変えず、driver の答えに合う応答を返す（`step_refused`）
* 一覧の request は、見える record をちょうど返す（`step_listed`）

driver の答えを etcd の応答に直す kine と、応答を比べる `model.Match` は、このリポジトリにない。`Agrees` は、driver が
実際に返す答えと、同じときのモデルの応答の組のすべてである。比べる関数は、これらの組に合うと言うもの（`Accepts`）なら
何でもよい。
-/

namespace KubeFdb.Robustness

open Tuple

variable {V : Type}

/-! ## 呼び出しと答え -/

/-- 書き込みの呼び出しの request。 -/
def requestFor (toV : Bytes → V) : WriteOp → Request V
  | .create key value _ => create toV key value
  | .update key value revision _ => update toV key value revision
  | .delete key revision => delete key revision

/-- prefix の一覧の範囲。`/` で終わらなければ鍵一つである。 -/
def listOptions (prefix_ : Key) : RangeOptions where
  start := prefix_
  end_ := if hasSlashSuffix prefix_ then (strinc prefix_).getD [] else []
  limit := 0

/-- driver の関数が返した答え。 -/
inductive Reply where
  | created (rev : Int)
  | keyExists
  | updated (rev : Int) (kv : Option KeyValue) (success : Bool)
  | deleted (rev : Int) (kv : Option KeyValue) (success : Bool)
  | listed (rev : Int) (kvs : List KeyValue)
deriving DecidableEq

/-- 書き込みの結果から作る答え。`Create` は成功したときの revision だけを返す。 -/
def replyFor (result : Int × Option KeyValue × Bool) : WriteOp → Reply
  | .create _ _ _ => .created result.1
  | .update _ _ _ _ => .updated result.1 result.2.1 result.2.2
  | .delete _ _ => .deleted result.1 result.2.1 result.2.2

/-- 何も書かなかった呼び出しの答え。 -/
def refusalFor (result : Int × Option KeyValue × Bool) : WriteOp → Reply
  | .create _ _ _ => .keyExists
  | op => replyFor result op

/-- driver の `KeyValue` に当たる、モデルの鍵と値。 -/
def entryOf (toV : Bytes → V) (kv : KeyValue) : Key × ValueRevision V :=
  (kv.key, ⟨toV kv.value, kv.modRevision, 0⟩)

/-- 鍵一つの読み出しの結果。 -/
def shown (toV : Bytes → V) (kv : Option KeyValue) : RangeResponse V :=
  ⟨kv.toList.map (entryOf toV), kv.toList.length⟩

/-- モデルの応答と、それに当たる driver の答え。断られた作成の答えには revision がない。条件なしの削除は、消す前の値も
読む。古い revision の一覧に、モデルは中身を答えない。 -/
inductive Agrees (toV : Bytes → V) : Response V → Reply → Prop
  | created (rev : Int) : Agrees toV (.txn ⟨false, [.zero]⟩ rev) (.created rev)
  | keyExists (rev : Int) : Agrees toV (.txn ⟨true, []⟩ rev) .keyExists
  | updated (rev : Int) (kv : KeyValue) :
    Agrees toV (.txn ⟨false, [.zero]⟩ rev) (.updated rev (some kv) true)
  | notUpdated (rev : Int) (kv : Option KeyValue) :
    Agrees toV (.txn ⟨true, [⟨shown toV kv, 0⟩]⟩ rev) (.updated rev kv false)
  | deleted (rev : Int) (kv : KeyValue) :
    Agrees toV (.txn ⟨false, [{ OperationResult.zero with deleted := 1 }]⟩ rev)
      (.deleted rev (some kv) true)
  | notDeleted (rev : Int) (kv : Option KeyValue) :
    Agrees toV (.txn ⟨true, [⟨shown toV kv, 0⟩]⟩ rev) (.deleted rev kv false)
  | deletedAny (rev : Int) (kv : KeyValue) (value : ValueRevision V) :
    Agrees toV (.txn ⟨false, [⟨⟨[(kv.key, value)], 1⟩, 0⟩,
      { OperationResult.zero with deleted := 1 }]⟩ rev) (.deleted rev (some kv) true)
  | notDeletedAny (rev : Int) :
    Agrees toV (.txn ⟨false, [.zero, .zero]⟩ rev) (.deleted rev none false)
  | listed (rev : Int) (kvs : List KeyValue) :
    Agrees toV (.range ⟨kvs.map (entryOf toV), kvs.length⟩ rev) (.listed rev kvs)
  | stale (rev : Int) (kvs : List KeyValue) : Agrees toV (.persisted rev) (.listed rev kvs)

/-- 応答を比べる `match_` が、当たる答えをどれも合うと言うこと。 -/
def Accepts (toV : Bytes → V) (match_ : Response V → Reply → Bool) : Prop :=
  ∀ response reply, Agrees toV response reply → match_ response reply = true

/-- `Update` には revision が要る。0 の `Update` を、driver は断り、モデルは作成として行う。 -/
def hasRevision : WriteOp → Bool
  | .update _ _ revision _ => decide (revision ≠ 0)
  | _ => true

/-! ## 書いた呼び出し -/

variable {toV : Bytes → V} {l : List RevRecord} {r : RevRecord} {st : EtcdState V} {op : WriteOp}

/-- record が操作 `op` の書いたものであること。 -/
def WrittenBy (op : WriteOp) (r : RevRecord) : Prop :=
  ∃ last record size uuid, op.Writes last record size ∧
    r.record = { record with writeUUID := uuid }

theorem WrittenBy.key_eq (h : WrittenBy op r) : r.key = op.key := by
  obtain ⟨last, record, size, uuid, hw, hr⟩ := h
  rw [RevRecord.key, hr]
  cases hw <;> rfl

/-- revision `rev` で書いたことを表す応答。 -/
inductive Wrote : WriteOp → (rev : Int) → Response V → Prop
  | created (key : Key) (value : Bytes) (lease rev : Int) :
    Wrote (.create key value lease) rev (.txn ⟨false, [.zero]⟩ rev)
  | updated (key : Key) (value : Bytes) (revision lease rev : Int) :
    Wrote (.update key value revision lease) rev (.txn ⟨false, [.zero]⟩ rev)
  | deleted (key : Key) (revision rev : Int) :
    Wrote (.delete key revision) rev
      (.txn ⟨false, [{ OperationResult.zero with deleted := 1 }]⟩ rev)
  | deletedAny (key : Key) (value : ValueRevision V) (rev : Int) :
    Wrote (.delete key 0) rev (.txn ⟨false, [⟨⟨[(key, value)], 1⟩, 0⟩,
      { OperationResult.zero with deleted := 1 }]⟩ rev)

theorem Wrote.txn {rev : Int} {response : Response V} (h : Wrote op rev response) :
    ∃ results, response = .txn ⟨false, results⟩ rev := by
  cases h <;> exact ⟨_, rfl⟩

/-- 書いたことを表す応答は、書いた呼び出しの答えに当たる。 -/
theorem Wrote.agrees (toV : Bytes → V) (cfg : Config) {rev : Int} {response : Response V}
    (h : Wrote op rev response) (hk : r.key = op.key) :
    Agrees toV response (replyFor (rev, op.answer cfg r, true) op) := by
  cases h with
  | created key value lease => exact .created rev
  | updated key value revision lease => exact .updated rev _
  | deleted key revision => exact .deleted rev _
  | deletedAny key value =>
    obtain rfl : (kvOf cfg r).key = key := hk
    exact .deletedAny rev _ value

/-- 条件なしの削除。 -/
theorem stepTxn_deleteAny (hkeys : st.keyLeases = .empty) {key : Key} {value : ValueRevision V}
    (hk : st.keyValues.get? key = some value) :
    st.stepTxn ⟨[], [.range ⟨key, [], 0⟩, .delete key], []⟩
      = ({ st with
          keyValues := st.keyValues.filter (fun k => decide (k ≠ key))
          revision := st.revision + 1 },
        .txn ⟨false, [⟨⟨[(key, value)], 1⟩, 0⟩, { OperationResult.zero with deleted := 1 }]⟩
          (st.revision + 1)) := by
  simp [EtcdState.stepTxn, EtcdState.applyOperations, EtcdState.applyOperation,
    EtcdState.getRange, EtcdState.detachFromOldLease, hkeys, hk]

theorem holds_revision (key : Key) (revision : Int) :
    st.holds ⟨key, revision, 0⟩
      = decide (((st.keyValues.get? key).map ValueRevision.modRevision).getD 0 = revision) := by
  simp [EtcdState.holds]

theorem requestFor_deleteAny (key : Key) :
    requestFor toV (.delete key 0)
      = .txn ⟨[], [.range ⟨key, [], 0⟩, .delete key], []⟩ := by
  simp [requestFor, delete]

theorem requestFor_deleteAt (key : Key) {revision : Int} (h0 : revision ≠ 0) :
    requestFor toV (.delete key revision)
      = .txn ⟨[⟨key, revision, 0⟩], [.delete key], [.range ⟨key, [], 0⟩]⟩ := by
  simp [requestFor, delete, h0]

/-- 生きていない鍵は、モデルにない。 -/
theorem Represents.get?_eq_none (h : Represents toV l st) (key : Key)
    (hn : ∀ last, newest RevRecord.key l key = some last → last.record.isDelete = true) :
    st.keyValues.get? key = none := by
  rw [h.keyValues, valueAt]
  cases hl : newest RevRecord.key l key with
  | none => rfl
  | some last => simp [RevRecord.live, hn last hl]

theorem Represents.get?_eq_some (h : Represents toV l st) (key : Key) {last : RevRecord}
    (hn : newest RevRecord.key l key = some last) (hd : last.record.isDelete = false) :
    st.keyValues.get? key = some ⟨toV last.record.value, last.revision, 0⟩ :=
  (h.keyValues key).trans (valueAt_eq_some hn (by simp [RevRecord.live, hd]))

/-- 値を書く request の一手。 -/
theorem step_put (h : Represents toV l st) (hrev : r.revision = l.length + 2)
    {cond : Condition} (hc : st.holds cond = true) {key : Key} {value : Bytes} (hk : r.key = key)
    (hv : r.record.value = value) (hd : r.record.isDelete = false)
    (hw : Wrote op r.revision (.txn ⟨false, [.zero]⟩ r.revision : Response V))
    (ops : List (Operation V)) :
    Represents toV (l ++ [r]) (st.stepTxn ⟨[cond], [.put ⟨key, toV value, 0⟩], ops⟩).1 ∧
      Wrote op r.revision (st.stepTxn ⟨[cond], [.put ⟨key, toV value, 0⟩], ops⟩).2 := by
  have hrev' : st.revision + 1 = r.revision := by rw [h.revision, hrev]; rfl
  rw [stepTxn_put h.leases h.keyLeases hc, hrev', ← hk, ← hv]
  exact ⟨hrev' ▸ h.put hrev hd, hw⟩

/-- **書いた呼び出しの request は、モデルでも書く。** -/
theorem step_wrote (h : Represents toV l st) {record : Record} {size : Int} {uuid : UUID}
    (hw : op.Writes (newest RevRecord.key l op.key) record size)
    (hr : r.record = { record with writeUUID := uuid }) (hrev : r.revision = l.length + 2) :
    Represents toV (l ++ [r]) (st.step (requestFor toV op)).1 ∧
      Wrote op r.revision (st.step (requestFor toV op)).2 := by
  have hrev' : st.revision + 1 = r.revision := by rw [h.revision, hrev]; rfl
  generalize hn : newest RevRecord.key l op.key = last at hw
  cases hw with
  | createNew key value lease =>
    have hnone := h.get?_eq_none key fun x hx => by cases hn.symm.trans hx
    exact step_put h hrev (by simp [holds_revision, hnone]) (by rw [RevRecord.key, hr])
      (by rw [hr]) (by rw [hr]) (.created key value lease _) []
  | createOver key value lease last hd =>
    have hnone := h.get?_eq_none key fun x hx => by cases hn.symm.trans hx; exact hd
    exact step_put h hrev (by simp [holds_revision, hnone]) (by rw [RevRecord.key, hr])
      (by rw [hr]) (by rw [hr]) (.created key value lease _) []
  | update key value revision lease last hd hlast =>
    have hsome := h.get?_eq_some key hn hd
    exact step_put h hrev (by rw [holds_revision, hsome]; simpa using hlast)
      (by rw [RevRecord.key, hr]) (by rw [hr]) (by rw [hr]) (.updated key value revision lease _) _
  | delete key revision last hd hlast =>
    have hsome := h.get?_eq_some key hn hd
    have hk : (st.keyValues.get? key).isSome = true := by rw [hsome]; rfl
    have hkey : r.key = key := by rw [RevRecord.key, hr]
    have hrep := h.delete (r := r) (by rw [hr])
    rw [hkey, hrev'] at hrep
    by_cases h0 : revision = 0
    · rw [h0, requestFor_deleteAny, EtcdState.step, stepTxn_deleteAny h.keyLeases hsome, hrev']
      exact ⟨hrep, .deletedAny key _ _⟩
    · have hcond : st.holds ⟨key, revision, 0⟩ = true := by
        rw [holds_revision, hsome]
        simpa using hlast.resolve_left h0
      rw [requestFor_deleteAt key h0, EtcdState.step, stepTxn_delete h.keyLeases hcond hk, hrev']
      exact ⟨hrep, .deleted key revision _⟩

/-! ## 断られた呼び出し -/

/-- 鍵一つの範囲。 -/
theorem getRange_key (h : Represents toV l st) (cfg : Config) (key : Key) :
    st.getRange ⟨key, [], 0⟩
      = shown toV (((newest RevRecord.key l key).filter RevRecord.live).map (kvOf cfg)) := by
  simp only [EtcdState.getRange, ne_eq, not_true_eq_false, if_false]
  rw [h.keyValues, valueAt]
  cases hn : (newest RevRecord.key l key).filter RevRecord.live with
  | none => rfl
  | some last =>
    obtain ⟨hlast, hlive⟩ := Option.filter_eq_some_iff.mp hn
    have hd : last.record.isDelete = false := by simpa [RevRecord.live] using hlive
    simp [shown, entryOf, kvOf_of_live cfg hd, RevRecord.keyValue, (newest_mem hlast).2]

/-- 条件の合わない transaction は、失敗の枝の読み出しだけを行う。 -/
theorem stepTxn_failed {cond : Condition} (hc : st.holds cond = false) (key : Key)
    (ops : List (Operation V)) :
    st.stepTxn ⟨[cond], ops, [.range ⟨key, [], 0⟩]⟩
      = (st, .txn ⟨true, [⟨st.getRange ⟨key, [], 0⟩, 0⟩]⟩ st.revision) := by
  simp [EtcdState.stepTxn, EtcdState.applyOperations, EtcdState.applyOperation, hc]

/-- ない鍵の、条件なしの削除。 -/
theorem stepTxn_deleteNone {key : Key} (hk : st.keyValues.get? key = none) :
    st.stepTxn ⟨[], [.range ⟨key, [], 0⟩, .delete key], []⟩
      = (st, .txn ⟨false, [.zero, .zero]⟩ st.revision) := by
  simp [EtcdState.stepTxn, EtcdState.applyOperations, EtcdState.applyOperation, EtcdState.getRange,
    OperationResult.zero, hk]

/-- 鍵の revision が違えば、条件は成り立たない。ない鍵の revision は 0 である。 -/
theorem Represents.not_holds (h : Represents toV l st) (key : Key) {revision : Int}
    (h0 : revision ≠ 0) (hno : ∀ last, newest RevRecord.key l key = some last →
      last.record.isDelete = false → last.revision ≠ revision) :
    st.holds ⟨key, revision, 0⟩ = false := by
  rw [holds_revision, h.keyValues, valueAt]
  refine decide_eq_false ?_
  cases hn : (newest RevRecord.key l key).filter RevRecord.live with
  | none => exact fun he => h0 he.symm
  | some last =>
    obtain ⟨hlast, hlive⟩ := Option.filter_eq_some_iff.mp hn
    exact hno last hlast (by simpa [RevRecord.live] using hlive)

/-- **断られた呼び出しの request は、モデルの状態を変えない。** 応答は driver の答えに当たる。 -/
theorem step_refused (cfg : Config) (h : Represents toV l st) (hwf : ∀ x ∈ l, x.Wf)
    (hop : hasRevision op = true)
    (hno : ∀ record size, ¬ op.Writes (newest RevRecord.key l op.key) record size) :
    (st.step (requestFor toV op)).1 = st ∧
      Agrees toV (st.step (requestFor toV op)).2 (refusalFor (l.length + 1,
        ((newest RevRecord.key l op.key).filter RevRecord.live).map (kvOf cfg), false) op) := by
  rw [← h.revision]
  cases op with
  | create key value lease =>
    -- 鍵は生きている
    obtain ⟨last, hn, hd⟩ : ∃ last, newest RevRecord.key l key = some last ∧
        last.record.isDelete = false := by
      cases hn : newest RevRecord.key l key with
      | none => exact absurd (.createNew key value lease) (hn ▸ hno _ _)
      | some last =>
        refine ⟨last, rfl, ?_⟩
        by_contra hd
        exact (hn ▸ hno _ _) (.createOver key value lease last (by simpa using hd))
    have hpos := (hwf last (newest_mem hn).1).rev.pos
    have hcond : st.holds ⟨key, 0, 0⟩ = false := by
      rw [holds_revision, h.get?_eq_some key hn hd]
      exact decide_eq_false hpos.ne'
    have hstep : st.step (requestFor toV (.create key value lease))
        = (st, .txn ⟨true, []⟩ st.revision) := by
      simp [requestFor, create, EtcdState.step, EtcdState.stepTxn, hcond, EtcdState.applyOperations]
    rw [hstep]
    exact ⟨rfl, .keyExists _⟩
  | update key value revision lease =>
    have hcond := h.not_holds key
      (show revision ≠ 0 by simpa [hasRevision] using hop)
      (fun last hn hd hr => (hn ▸ hno _ _) (.update key value revision lease last hd hr))
    simp only [requestFor, update, EtcdState.step]
    rw [stepTxn_failed hcond, getRange_key h cfg]
    exact ⟨rfl, .notUpdated _ _⟩
  | delete key revision =>
    by_cases h0 : revision = 0
    · have hnone := h.get?_eq_none key fun last hn => by
        by_contra hd
        exact (hn ▸ hno _ _) (.delete key revision last (by simpa using hd) (Or.inl h0))
      have hdead : (newest RevRecord.key l key).filter RevRecord.live = none := by
        rw [h.keyValues, valueAt] at hnone
        exact Option.map_eq_none_iff.mp hnone
      rw [h0, requestFor_deleteAny, EtcdState.step, stepTxn_deleteNone hnone]
      refine ⟨rfl, ?_⟩
      rw [show (WriteOp.delete key 0).key = key from rfl, hdead]
      exact .notDeletedAny _
    · have hcond := h.not_holds key h0
        (fun last hn hd hr => (hn ▸ hno _ _) (.delete key revision last hd (Or.inr hr)))
      rw [requestFor_deleteAt key h0, EtcdState.step, stepTxn_failed hcond, getRange_key h cfg]
      exact ⟨rfl, .notDeleted _ _⟩

/-! ## 一覧 -/

/-- 応答が、履歴 `hist` の終わりでの、revision `R` の一覧の応答であること。古い revision の中身は、モデルは答えない。 -/
structure Listed (toV : Bytes → V) (prefix_ : Key) (R : Int) (hist : List RevRecord)
    (response : Response V) : Prop where
  current : R = 0 ∨ R = hist.length + 1 → ∀ live : List RevRecord, SortedBy RevRecord.key live →
    (∀ r, r ∈ live ↔ LiveAt 0 hist r ∧ inListRange prefix_ prefix_ r.key = true) →
    ∀ cfg, response = .range ⟨live.map (fun r => entryOf toV (kvOf cfg r)), live.length⟩
      (hist.length + 1)
  stale : 0 < R → R < hist.length + 1 → response = .persisted (hist.length + 1)

/-- `/` で終わる prefix の範囲は、その prefix を持つ鍵である。 -/
theorem mem_listOptions {prefix_ : Key} (hs : hasSlashSuffix prefix_ = true) :
    (listOptions prefix_).end_ ≠ [] ∧ ∀ key, prefix_ ≤ key ∧ key < (listOptions prefix_).end_ ↔
      doesEventHavePrefix key prefix_ = true := by
  have hlast : prefix_.getLast? = some 0x2F := of_decide_eq_true hs
  obtain ⟨q, rfl⟩ := List.getLast?_eq_some_iff.mp hlast
  have hend : (listOptions (q ++ [0x2F])).end_ = q ++ [0x2F + 1] := by
    simp only [listOptions, hs, if_true]
    rw [strinc_concat (by decide)]
    rfl
  refine ⟨by simp [hend], fun key => ?_⟩
  rw [hend, ← prefix_concat_iff_mem_range (by decide), doesEventHavePrefix]
  simp only [hlast, decide_true, Bool.true_and, Bool.or_eq_true, List.isPrefixOf_iff_prefix,
    decide_eq_true_eq]
  exact ⟨Or.inl, fun h => h.elim id (fun h => h ▸ List.prefix_rfl)⟩

/-- 一覧の応答は、範囲の鍵と値を鍵の順に並べたものである。 -/
theorem getRange_listOptions (st : EtcdState V) (prefix_ : Key) :
    ∃ kvs, st.getRange (listOptions prefix_) = ⟨kvs, kvs.length⟩ ∧ SortedBy Prod.fst kvs ∧
      ∀ e, e ∈ kvs ↔ doesEventHavePrefix e.1 prefix_ = true ∧
        st.keyValues.get? e.1 = some e.2 := by
  cases hs : hasSlashSuffix prefix_ with
  | true =>
    obtain ⟨hend, hmem⟩ := mem_listOptions hs
    refine ⟨st.keyValues.entries.filter (fun e => decide (prefix_ ≤ e.1) &&
      decide (e.1 < (listOptions prefix_).end_)), ?_, st.keyValues.sorted.filter _, fun e => ?_⟩
    · simp only [EtcdState.getRange, hend, ne_eq, not_false_eq_true, if_true]
      rfl
    · rw [List.mem_filter, Bool.and_eq_true, decide_eq_true_eq, decide_eq_true_eq, hmem,
        OrdMap.get?_eq_some_iff, and_comm]
  | false =>
    have hsame : ∀ key, doesEventHavePrefix key prefix_ = true ↔ key = prefix_ := by
      intro key
      simp only [doesEventHavePrefix, show decide (prefix_.getLast? = some 0x2F) = false from hs,
        Bool.false_and, Bool.false_or, decide_eq_true_eq]
    cases hget : st.keyValues.get? prefix_ with
    | none =>
      refine ⟨[], ?_, SortedBy.nil, fun e => ?_⟩
      · simp [EtcdState.getRange, listOptions, hs, hget]
      · refine iff_of_false List.not_mem_nil ?_
        rintro ⟨he, hv⟩
        rw [(hsame e.1).mp he, hget] at hv
        cases hv
    | some value =>
      refine ⟨[(prefix_, value)], ?_, SortedBy.singleton _, fun e => ?_⟩
      · simp [EtcdState.getRange, listOptions, hs, hget]
      · rw [List.mem_singleton, hsame]
        constructor
        · rintro rfl
          exact ⟨rfl, hget⟩
        · rintro ⟨he, hv⟩
          rw [he, hget] at hv
          exact Prod.ext he (Option.some.inj hv).symm

/-- 履歴の終わりで値を持つ鍵は、見える record の鍵である。 -/
theorem valueAt_eq_some_iff (hs : SortedBy RevRecord.rev l) {k : Key} {v : ValueRevision V} :
    valueAt toV l k = some v ↔
      ∃ r, LiveAt 0 l r ∧ r.key = k ∧ v = ⟨toV r.record.value, r.revision, 0⟩ := by
  have hall : historyAt 0 l = l := List.filter_eq_self.mpr fun r _ => by simp
  unfold valueAt
  rw [Option.map_eq_some_iff]
  refine exists_congr fun r => ?_
  rw [Option.filter_eq_some_iff, liveAt_iff_newest hs, hall]
  constructor
  · rintro ⟨⟨hn, hlive⟩, rfl⟩
    have hk := (newest_mem hn).2
    exact ⟨⟨hk ▸ hn, by simpa [RevRecord.live] using hlive⟩, hk, rfl⟩
  · rintro ⟨⟨hn, hd⟩, rfl, rfl⟩
    exact ⟨⟨hn, by simp [RevRecord.live, hd]⟩, rfl⟩

/-- 最新の revision の一覧の応答は、見える record をちょうど返す。 -/
theorem getRange_listed (h : Represents toV l st) (hs : SortedBy RevRecord.rev l) {prefix_ : Key}
    {live : List RevRecord} (hlive : SortedBy RevRecord.key live)
    (hiff : ∀ r, r ∈ live ↔ LiveAt 0 l r ∧ inListRange prefix_ prefix_ r.key = true) (cfg : Config) :
    st.getRange (listOptions prefix_)
      = ⟨live.map (fun r => entryOf toV (kvOf cfg r)), live.length⟩ := by
  obtain ⟨kvs, hrange, hsorted, hmem⟩ := getRange_listOptions st prefix_
  have hentry : ∀ r ∈ live, entryOf toV (kvOf cfg r)
      = (r.key, ⟨toV r.record.value, r.revision, 0⟩) := by
    intro r hr
    have hd : r.record.isDelete = false := by simpa [RevRecord.live] using ((hiff r).mp hr).1.live
    rw [kvOf_of_live cfg hd]
    rfl
  have heq : kvs = live.map (fun r => entryOf toV (kvOf cfg r)) := by
    refine SortedBy.eq_of_mem_iff hsorted ?_ fun e => ?_
    · exact SortedBy.map_iff.mpr hlive
    · rw [hmem, h.keyValues, valueAt_eq_some_iff hs, List.mem_map]
      constructor
      · rintro ⟨hp, r, hl, hk, hv⟩
        have hr := (hiff r).mpr ⟨hl, by rw [inListRange_self_eq, hk]; exact hp⟩
        exact ⟨r, hr, by rw [hentry r hr]; exact Prod.ext hk hv.symm⟩
      · rintro ⟨r, hr, rfl⟩
        obtain ⟨hl, hin⟩ := (hiff r).mp hr
        rw [hentry r hr]
        exact ⟨by rw [← inListRange_self_eq]; exact hin, r, hl, rfl, rfl⟩
  rw [hrange, heq, List.length_map]

/-- **一覧の request の応答。** -/
theorem step_listed (h : Represents toV l st) (hc : st.compactRevision ≤ 0)
    (hs : SortedBy RevRecord.rev l) (prefix_ : Key) (R : Int) :
    Listed toV prefix_ R l (st.step (.range (listOptions prefix_) R)).2 := by
  refine ⟨fun hR live hlive hiff cfg => ?_, fun hpos hlt => ?_⟩
  · rw [← h.revision] at hR ⊢
    simp only [EtcdState.step, EtcdState.stepRange, if_pos hR, getRange_listed h hs hlive hiff cfg]
  · rw [← h.revision] at hlt ⊢
    have hne : ¬ (R = 0 ∨ R = st.revision) := by omega
    simp only [EtcdState.step, EtcdState.stepRange, if_neg hne, if_neg (not_lt.mpr hlt.le),
      if_neg (show ¬ R < st.compactRevision by omega)]

end KubeFdb.Robustness
