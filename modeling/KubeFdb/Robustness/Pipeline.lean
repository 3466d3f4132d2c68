import KubeFdb.Robustness.PatchSound
import KubeFdb.Robustness.RecordedOrder

/-!
# driver は線形化の検査を通る

記録された呼び出しを client の report にまとめて、`validate.go` の手順で検査する。report の仕分け、log と watch に
よる補正、参照モデルでの線形化の順である。

`driver_passes_linearization` — 連番の設定のどの run でも、再試行がいつも自分の record を見つけ、`Update` が revision を
持ち、一覧の revision が負でないなら、補正した履歴は線形化できる。検査は driver について偽の違反を報告しない。
-/

namespace KubeFdb.Robustness

open Tuple

variable {V : Type} {toV : Bytes → V} {match_ : Response V → Reply → Bool} {cfg : Config}
  {s : Recorder}

/-! ## 報告される履歴 -/

/-- client の見た答え。error を受け取った呼び出しも、終わっていない呼び出しも失敗である。 -/
def Recorded.output (o : Recorded) : Observed Reply :=
  match o.returned with
  | some (_, some reply) => .response reply
  | _ => .failed

/-- 報告される呼び出し。手の始まりは偶数、終わりは奇数の時刻である。 -/
def Recorded.historyOp (toV : Bytes → V) (now : Nat) (o : Recorded) : HistoryOp V Reply where
  clientId := o.clientId
  input := o.progress.request toV
  call := 2 * o.call
  output := o.output
  ret := 2 * ((o.returned.map Prod.fst).getD now : Nat) + 1

def Recorder.history (toV : Bytes → V) (s : Recorder) : List (HistoryOp V Reply) :=
  s.ops.map (Recorded.historyOp toV s.now)

/-- `EtcdRequest.IsRead` が、書き込みのある transaction を読み出しとしないこと。 -/
def TellsWrites (isRead : Request V → Bool) : Prop :=
  ∀ request : TxnRequest V, hasWriteOperation request.operations = true →
    isRead (.txn request) = false

/-- 線形化に渡される呼び出し。 -/
def Recorded.kept (isRead : Request V → Bool) (toV : Bytes → V) (o : Recorded) : Bool :=
  isLinearizable isRead (o.progress.request toV) o.output

/-! ## 効いた順に並べた履歴 -/

/-- 効いた時点の呼び出し。線形化に渡されないものは除く。 -/
def Recorder.tookAt (isRead : Request V → Bool) (toV : Bytes → V) (s : Recorder) (p : Point V) :
    Option (Happened V Reply) :=
  ((s.ops[p.who]?).filter (Recorded.kept isRead toV)).map
    (fun o => ⟨withReturn (o.historyOp toV s.now), 2 * p.time, true⟩)

/-- 実際に起きたこと。まだ効いていない呼び出しは、失われたものとして最後に並べる。 -/
def Recorder.happened (isRead : Request V → Bool) (toV : Bytes → V) (s : Recorder)
    (lin : List (Point V)) : List (Happened V Reply) :=
  lin.filterMap (s.tookAt isRead toV) ++
  (s.ops.filter (fun o => o.kept isRead toV && !o.effective)).map
    (fun o => ⟨withReturn (o.historyOp toV s.now), 2 * s.now, false⟩)

section

variable {isRead : Request V → Bool} {o : Recorded} {c : WriteCall}

theorem requestFor_txn (toV : Bytes → V) (op : WriteOp) : ∃ request : TxnRequest V,
    requestFor toV op = .txn request ∧ hasWriteOperation request.operations = true := by
  cases op with
  | create key value lease => exact ⟨_, rfl, rfl⟩
  | update key value revision lease => exact ⟨_, rfl, rfl⟩
  | delete key revision =>
    by_cases h0 : revision = 0
    · rw [h0]
      exact ⟨_, requestFor_deleteAny key, rfl⟩
    · exact ⟨_, requestFor_deleteAt key h0, rfl⟩

theorem kept_write (hr : TellsWrites isRead) (hc : o.progress = .write c) :
    o.kept isRead toV = true := by
  obtain ⟨request, hreq, hw⟩ := requestFor_txn toV c.op
  simp [Recorded.kept, hc, Progress.request, hreq, isLinearizable, hr request hw,
    Request.isDefragment]

/-- 渡されないのは、失敗した一覧である。 -/
theorem not_kept (hr : TellsWrites isRead) (hk : o.kept isRead toV = false) :
    o.output = .failed ∧
      ∃ prefix_ revision, o.progress.request toV = .range (listOptions prefix_) revision := by
  cases hp : o.progress with
  | write c => exact absurd ((kept_write hr hp).symm.trans hk) (by decide)
  | list prefix_ revision range call snapshot =>
    refine ⟨?_, prefix_, revision, rfl⟩
    cases hout : o.output with
    | failed => rfl
    | persisted revision =>
      simp [Recorded.kept, hp, Progress.request, isLinearizable, hout, Observed.isFailed,
        Request.isDefragment] at hk
    | response reply =>
      simp [Recorded.kept, hp, Progress.request, isLinearizable, hout, Observed.isFailed,
        Request.isDefragment] at hk

theorem output_cases (o : Recorded) : o.output = .failed ∨
    ∃ t reply, o.returned = some (t, some reply) ∧ o.output = .response reply := by
  unfold Recorded.output
  cases hr : o.returned with
  | none => exact Or.inl rfl
  | some x =>
    obtain ⟨t, reply⟩ := x
    cases reply with
    | none => exact Or.inl rfl
    | some reply => exact Or.inr ⟨t, reply, rfl, rfl⟩

/-- まだ効いていない、渡される呼び出しは、失敗した書き込みである。 -/
theorem lost_failed (hinv : s.Inv cfg) (ho : o ∈ s.ops) (he : o.effective = false) :
    o.output = .failed := by
  refine (output_cases o).resolve_right ?_
  rintro ⟨t, reply, hr, -⟩
  cases hp : o.progress with
  | write c => exact absurd (he.symm.trans (effective_of_response hp hr)) (by decide)
  | list prefix_ revision range call snapshot =>
    have hnone : snapshot = none := by
      simpa [Recorded.effective, hp] using he
    obtain ⟨hscan, hret⟩ := hinv.lists o ho prefix_ revision range call snapshot hp
    obtain ⟨t, live, hsnap, -⟩ := hscan.answer (hret _ hr)
    cases hnone.symm.trans hsnap

end

section

variable {isRead : Request V → Bool} {lin : List (Point V)} {e : Happened V Reply}

/-- 効いた呼び出し。 -/
structure Took (isRead : Request V → Bool) (toV : Bytes → V) (s : Recorder) (p : Point V)
    (o : Recorded) (e : Happened V Reply) : Prop where
  call : s.ops[p.who]? = some o
  kept : o.kept isRead toV = true
  eq : e = ⟨withReturn (o.historyOp toV s.now), 2 * p.time, true⟩

/-- 失われた呼び出し。 -/
structure Lost (isRead : Request V → Bool) (toV : Bytes → V) (s : Recorder) (i : Nat)
    (o : Recorded) (e : Happened V Reply) : Prop where
  call : s.ops[i]? = some o
  kept : o.kept isRead toV = true
  effective : o.effective = false
  eq : e = ⟨withReturn (o.historyOp toV s.now), 2 * s.now, false⟩

theorem tookAt_eq_some {p : Point V} :
    s.tookAt isRead toV p = some e ↔ ∃ o, Took isRead toV s p o e := by
  rw [Recorder.tookAt, Option.map_eq_some_iff]
  constructor
  · rintro ⟨o, ho, rfl⟩
    obtain ⟨ho, hk⟩ := Option.filter_eq_some_iff.mp ho
    exact ⟨o, ho, hk, rfl⟩
  · rintro ⟨o, ho, hk, rfl⟩
    exact ⟨o, Option.filter_eq_some_iff.mpr ⟨ho, hk⟩, rfl⟩

theorem mem_happened : e ∈ s.happened isRead toV lin ↔
    (∃ p ∈ lin, ∃ o, Took isRead toV s p o e) ∨ ∃ i o, Lost isRead toV s i o e := by
  unfold Recorder.happened
  rw [List.mem_append]
  refine or_congr ?_ ?_
  · rw [List.mem_filterMap]
    exact exists_congr fun p => and_congr_right fun _ => tookAt_eq_some
  · rw [List.mem_map]
    constructor
    · rintro ⟨o, ho, rfl⟩
      obtain ⟨ho, hk⟩ := List.mem_filter.mp ho
      obtain ⟨hk, he⟩ := (Bool.and_eq_true _ _).mp hk
      obtain ⟨i, hi⟩ := List.mem_iff_getElem?.mp ho
      exact ⟨i, o, hi, hk, by simpa using he, rfl⟩
    · rintro ⟨i, o, hi, hk, he, rfl⟩
      exact ⟨o, List.mem_filter.mpr ⟨List.mem_of_getElem? hi, by simp [hk, he]⟩, rfl⟩

/-- 呼び出しは、始まりと終わりの間に効く。 -/
theorem within_of_fits {p : Point V} {o : Recorded} (hf : p.Fits toV o) (hp : p.time < s.now)
    (hshort : 2 * s.now < maxInt64) :
    (withReturn (o.historyOp toV s.now)).call ≤ 2 * p.time ∧
      2 * (p.time : Int) < (withReturn (o.historyOp toV s.now)).ret := by
  have hsince := hf.since
  refine ⟨?_, ?_⟩
  · rw [withReturn_call]
    show 2 * (o.call : Int) ≤ _
    omega
  · rcases output_cases o with hout | ⟨t, reply, hr, hout⟩
    · rw [withReturn_of_failed (show (o.historyOp toV s.now).output.isFailed = true by
        rw [Recorded.historyOp, hout]; rfl)]
      omega
    · rw [withReturn_of_not_failed (show (o.historyOp toV s.now).output.isFailed = false by
        rw [Recorded.historyOp, hout]; rfl)]
      have hle := hf.until_ t (some reply) hr
      show 2 * (p.time : Int) < 2 * ((o.returned.map Prod.fst).getD s.now : Nat) + 1
      rw [hr]
      show 2 * (p.time : Int) < 2 * (t : Nat) + 1
      omega

end

section

variable [DecidableEq V] {isRead : Request V → Bool} {lin : List (Point V)} {st : EtcdState V}
  {commits : List Nat}

/-- 効いた順の呼び出しは、効いた呼び出しの並べ替えである。 -/
theorem Recorder.Ordered.perm_effective (h : s.Ordered toV lin st commits) :
    (lin.filterMap (fun p => s.ops[p.who]?)).Perm (s.ops.filter Recorded.effective) := by
  have hperm := perm_filterMap_getElem? (l := s.ops) (q := Recorded.effective) h.nodup fun i => ?_
  · rwa [List.filterMap_map] at hperm
  · rw [List.mem_map]
    constructor
    · rintro ⟨p, hp, rfl⟩
      obtain ⟨o, ho, hf⟩ := h.fits p hp
      exact ⟨o, ho, hf.effective⟩
    · rintro ⟨o, ho, he⟩
      exact h.pointed i o ho he

/-- 並べた呼び出しは、線形化に渡される呼び出しの並べ替えである。 -/
theorem Recorder.Ordered.perm_happened (h : s.Ordered toV lin st commits)
    {reports : List (ClientReport V Reply)} (hreports : (issued reports).Perm (s.history toV)) :
    ((s.happened isRead toV lin).map Happened.op).Perm
      (prepareAndCategorizeOperations isRead reports).linearizable := by
  rw [prepare_linearizable]
  refine List.Perm.trans ?_ ((hreports.filter _).map withReturn).symm
  have htook : (lin.filterMap (s.tookAt isRead toV)).map Happened.op
      = ((lin.filterMap (fun p => s.ops[p.who]?)).filter (Recorded.kept isRead toV)).map
          (fun o => withReturn (o.historyOp toV s.now)) := by
    rw [List.map_filterMap, List.filter_filterMap, List.map_filterMap]
    refine List.filterMap_congr fun p _ => ?_
    rw [Recorder.tookAt, Option.map_map]
    rfl
  have hkept : ((s.history toV).filter (fun op => isLinearizable isRead op.input op.output)).map
      withReturn = (s.ops.filter (Recorded.kept isRead toV)).map
        (fun o => withReturn (o.historyOp toV s.now)) := by
    rw [Recorder.history, List.filter_map, List.map_map]
    rfl
  rw [Recorder.happened, List.map_append, htook, List.map_map, hkept]
  refine List.Perm.trans (((h.perm_effective.filter _).map _).append_right _) ?_
  refine List.Perm.trans (List.Perm.of_eq ?_) ((List.filter_append_perm Recorded.effective
    (s.ops.filter (Recorded.kept isRead toV))).map _)
  rw [List.map_append, List.filter_filter, List.filter_filter, List.filter_filter]
  congr 2
  · exact List.filter_congr fun o _ => Bool.and_comm _ _
  · exact List.filter_congr fun o _ => Bool.and_comm _ _

/-! ## 時刻 -/

theorem Recorder.Ordered.within_happened (hinv : s.Inv cfg) (h : s.Ordered toV lin st commits)
    (hshort : 2 * s.now < maxInt64) {e : Happened V Reply}
    (he : e ∈ s.happened isRead toV lin) : e.op.call ≤ e.point ∧ e.point < e.op.ret := by
  rcases mem_happened.mp he with ⟨p, hp, o, ho, hk, rfl⟩ | ⟨i, o, hi, hk, hn, rfl⟩
  · obtain ⟨o', ho', hf⟩ := h.fits p hp
    rw [ho] at ho'
    cases ho'
    exact within_of_fits hf (h.past p hp) hshort
  · have hmem := List.mem_of_getElem? hi
    have hcall := hinv.called o hmem
    constructor
    · show (withReturn (o.historyOp toV s.now)).call ≤ 2 * (s.now : Int)
      rw [withReturn_call]
      show 2 * (o.call : Int) ≤ _
      omega
    · show 2 * (s.now : Int) < (withReturn (o.historyOp toV s.now)).ret
      rw [withReturn_of_failed (show (o.historyOp toV s.now).output.isFailed = true by
        rw [Recorded.historyOp, lost_failed hinv hmem hn]; rfl)]
      omega

theorem Recorder.Ordered.sorted_happened (h : s.Ordered toV lin st commits) :
    (s.happened isRead toV lin).Pairwise (fun a b => a.point ≤ b.point) := by
  refine List.pairwise_append.mpr ⟨?_, ?_, ?_⟩
  · rw [List.pairwise_filterMap]
    refine h.increasing.imp fun {p q} hpq a ha b hb => ?_
    obtain ⟨o, -, rfl⟩ := Option.map_eq_some_iff.mp ha
    obtain ⟨o', -, rfl⟩ := Option.map_eq_some_iff.mp hb
    show 2 * (p.time : Int) ≤ 2 * (q.time : Int)
    omega
  · rw [List.pairwise_map]
    exact List.pairwise_of_forall_mem_list fun _ _ _ _ => le_rfl
  · intro a ha b hb
    obtain ⟨p, hp, ha⟩ := List.mem_filterMap.mp ha
    obtain ⟨o, -, rfl⟩ := Option.map_eq_some_iff.mp ha
    obtain ⟨o', -, rfl⟩ := List.mem_map.mp hb
    have := h.past p hp
    show 2 * (p.time : Int) ≤ 2 * (s.now : Int)
    omega

/-! ## モデルでの実行 -/

/-- 効いた順の呼び出しは、モデルの同じ状態を通る。 -/
theorem follow_took (hread : TellsWrites isRead) (hmatch : Accepts toV match_)
    (nonLinearizable : Int) :
    ∀ (lin : List (Point V)) {st st' : EtcdState V},
    (∀ p ∈ lin, ∃ o, s.ops[p.who]? = some o ∧ p.Fits toV o) →
    runSteps EtcdState.answer st lin = some st' →
    runSteps (EtcdState.follow match_ nonLinearizable) st
      ((lin.filterMap (s.tookAt isRead toV)).map Happened.label) = some st'
  | [], _, _, _, hr => hr
  | p :: lin, st, st', hfits, hr => by
    obtain ⟨st₁, hst₁, hr⟩ := runSteps_cons.mp hr
    obtain ⟨o, ho, hf⟩ := hfits p List.mem_cons_self
    have hrest := follow_took hread hmatch nonLinearizable lin
      (fun q hq => hfits q (List.mem_cons_of_mem _ hq)) hr
    unfold EtcdState.answer at hst₁
    split at hst₁
    · next hresponse =>
      cases hst₁
      cases hk : o.kept isRead toV with
      | true =>
        rw [List.filterMap_cons_some (tookAt_eq_some.mpr ⟨o, ho, hk, rfl⟩), List.map_cons]
        refine runSteps_cons.mpr ⟨_, ?_, hrest⟩
        simp only [EtcdState.follow, Happened.label, withReturn_input, withReturn_output]
        rw [show (o.historyOp toV s.now).input = p.request from hf.request.symm,
          EtcdState.destined, hresponse, if_pos]
        rcases output_cases o with hout | ⟨t, reply, hret, hout⟩
        · rw [show (o.historyOp toV s.now).output = .failed from hout]
          rfl
        · rw [show (o.historyOp toV s.now).output = .response reply from hout]
          exact hmatch _ _ (hf.agrees t reply hret)
      | false =>
        obtain ⟨-, prefix_, revision, hreq⟩ := not_kept hread hk
        rw [List.filterMap_cons_none (by
          rw [Recorder.tookAt, ho, Option.filter_some_neg (by rw [hk])]; rfl)]
        rwa [hf.request, hreq, step_range_state] at hrest
    · cases hst₁

end

/-- 失われた呼び出しは、状態を変えない。 -/
theorem follow_lost (nonLinearizable : Int) (st : EtcdState V) :
    ∀ {es : List (Happened V Reply)},
    (∀ e ∈ es, e.op.output = .failed ∧ e.persisted = false) →
    runSteps (EtcdState.follow match_ nonLinearizable) st (es.map Happened.label) = some st
  | [], _ => rfl
  | e :: es, hes => by
    obtain ⟨hout, hp⟩ := hes e List.mem_cons_self
    rw [List.map_cons]
    refine runSteps_cons.mpr ⟨st, ?_, follow_lost nonLinearizable st
      fun x hx => hes x (List.mem_cons_of_mem _ hx)⟩
    rw [EtcdState.follow, Happened.label, hout, hp]
    rfl

/-! ## log と watch -/

/-- record の request は、書いた呼び出しの request と同じ組を書く。 -/
theorem WrittenBy.puts_eq {op : WriteOp} {r : RevRecord} (h : WrittenBy op r) (toV : Bytes → V) :
    (requestOf toV r).puts = (requestFor toV op).puts := by
  obtain ⟨last, record, size, uuid, hw, hr⟩ := h
  unfold requestOf
  rw [hr]
  cases hw with
  | createNew key value lease => rfl
  | createOver key value lease last hd => rfl
  | update key value revision lease last hd hrev => rfl
  | delete key revision last hd hrev =>
    have hnone : ∀ prevRev : Int, (delete key prevRev : Request V).puts = [] := by
      intro prevRev
      unfold delete
      split <;> rfl
    exact (hnone _).trans (hnone revision).symm

theorem requestOf_txn (toV : Bytes → V) (r : RevRecord) :
    ∃ request : TxnRequest V, requestOf toV r = .txn request := by
  unfold requestOf create update delete
  split
  · exact ⟨_, rfl⟩
  · split
    · split <;> exact ⟨_, rfl⟩
    · exact ⟨_, rfl⟩

/-- 値を書く record の request は、その組を書く。 -/
theorem mem_puts_requestOf {r : RevRecord} (hd : r.record.isDelete = false) :
    (r.key, toV r.record.value) ∈ (requestOf toV r).puts := by
  unfold requestOf
  rw [hd]
  split <;> exact List.mem_cons_self

theorem walToEtcdRequests_eq {db : Db} {recs : List RevRecord} (h : db.Holds recs) (toV : Bytes → V)
    (splits : Nat → Nat) :
    walToEtcdRequests toV splits db = .ok (recs.map (requestOf toV)) := by
  unfold walToEtcdRequests
  rw [readWAL_eq h]
  show Except.ok ((recs.map RevRecord.stored).map (requestOf toV)) = _
  rw [List.map_map]
  rfl

section

variable [DecidableEq V] {reports : List (ClientReport V Reply)} {kv : Key × V}

/-- 一度しか書かれない組を書く呼び出しの番号は一つである。 -/
theorem index_unique (hreports : (issued reports).Perm (s.history toV))
    (hc : (countClientPuts reports).get kv ≤ 1) {i j : Nat} {o o' : Recorded}
    (hi : s.ops[i]? = some o) (hj : s.ops[j]? = some o')
    (hk : kv ∈ (o.progress.request toV).puts) (hk' : kv ∈ (o'.progress.request toV).puts) :
    i = j := by
  have hcount : (countClientPuts reports).get kv
      = (s.ops.flatMap (fun o => (o.progress.request toV).puts)).count kv := by
    rw [countClientPuts_get, (hreports.flatMap_right _).count_eq, Recorder.history,
      List.flatMap_map]
    rfl
  have htwo : ∀ {i j : Nat} {o o' : Recorded}, s.ops[i]? = some o → s.ops[j]? = some o' →
      kv ∈ (o.progress.request toV).puts → kv ∈ (o'.progress.request toV).puts → ¬ i < j := by
    intro i j o o' hi hj hk hk' hlt
    have ho : o ∈ s.ops.take (i + 1) :=
      List.mem_of_getElem? (i := i) (by rw [List.getElem?_take_of_lt (Nat.lt_succ_self i)]; exact hi)
    have ho' : o' ∈ s.ops.drop (i + 1) := by
      refine List.mem_of_getElem? (i := j - (i + 1)) ?_
      rw [List.getElem?_drop, show i + 1 + (j - (i + 1)) = j by omega]
      exact hj
    have h₁ := List.count_pos_iff.mpr (List.mem_flatMap (f := fun o : Recorded =>
      (o.progress.request toV).puts).mpr ⟨o, ho, hk⟩)
    have h₂ := List.count_pos_iff.mpr (List.mem_flatMap (f := fun o : Recorded =>
      (o.progress.request toV).puts).mpr ⟨o', ho', hk'⟩)
    rw [hcount, ← List.take_append_drop (i + 1) s.ops, List.flatMap_append,
      List.count_append] at hc
    omega
  exact le_antisymm (not_lt.mp (htwo hj hi hk' hk)) (not_lt.mp (htwo hi hj hk hk'))

/-- 表にある revision は、watch の event のものである。 -/
theorem putRevision_eq_some {revision : Int} (h : putRevision reports kv = some revision) :
    ∃ event ∈ watchEvents reports, event.type = .put ∧ event.key = kv.1 ∧
      event.value = some kv.2 ∧ event.revision = revision := by
  have hfold : ∀ (events : List (WatchEvent V)) (m : KvMap V),
      events.foldl recordPutRevision m kv = some revision → m kv = some revision ∨
        ∃ event ∈ events, event.type = .put ∧ event.key = kv.1 ∧ event.value = some kv.2 ∧
          event.revision = revision := by
    intro events
    induction events with
    | nil => exact fun m hm => Or.inl hm
    | cons event events ih =>
      intro m hm
      rw [List.foldl_cons] at hm
      rcases ih _ hm with hm | ⟨x, hx, hrest⟩
      · cases htype : event.type with
        | delete =>
          simp only [recordPutRevision, htype] at hm
          exact Or.inl hm
        | put =>
          cases hvalue : event.value with
          | none =>
            simp only [recordPutRevision, htype, hvalue] at hm
            exact Or.inl hm
          | some value =>
            simp only [recordPutRevision, htype, hvalue] at hm
            by_cases hkv : kv = (event.key, value)
            · rw [hkv, KvMap.set_self] at hm
              exact Or.inr ⟨event, List.mem_cons_self, htype, by rw [hkv], by rw [hkv, hvalue],
                Option.some.inj hm⟩
            · rw [KvMap.set_of_ne _ _ hkv] at hm
              exact Or.inl hm
      · exact Or.inr ⟨x, List.mem_cons_of_mem _ hx, hrest⟩
  exact (hfold _ _ h).resolve_left (by simp [KvMap.empty])

omit [DecidableEq V] in
/-- 一つしかない値を書く transaction は、put を一つ持つ。 -/
theorem requestFor_unique {op : WriteOp} {request : TxnRequest V} {counts : KvMap V}
    (hreq : requestFor toV op = .txn request) (hu : isUniqueTxn request counts = true) :
    putsOf request.operations ≠ [] ∧ ∀ kv ∈ putsOf request.operations, counts.get kv = 1 := by
  cases op with
  | create key value lease =>
    cases hreq
    simpa [isUniqueTxn, isUniqueOps, hasUniqueWriteOperation, hasWriteOperation, putsOf,
      TxnRequest.operations, Operation.isWrite] using hu
  | update key value revision lease =>
    cases hreq
    simpa [isUniqueTxn, isUniqueOps, hasUniqueWriteOperation, hasWriteOperation, putsOf,
      TxnRequest.operations, Operation.isWrite] using hu
  | delete key revision =>
    exfalso
    by_cases h0 : revision = 0
    · rw [h0, requestFor_deleteAny] at hreq
      cases hreq
      simp [isUniqueTxn, isUniqueOps, hasUniqueWriteOperation, hasWriteOperation, putsOf,
        Operation.isWrite] at hu
    · rw [requestFor_deleteAt key h0] at hreq
      cases hreq
      simp [isUniqueTxn, isUniqueOps, hasUniqueWriteOperation, hasWriteOperation, putsOf,
        Operation.isWrite] at hu

end

/-! ## 実際の履歴 -/

section

variable [DecidableEq V] {isRead : Request V → Bool} {lin : List (Point V)} {st : EtcdState V}
  {commits : List Nat} {reports : List (ClientReport V Reply)} {e : Happened V Reply}
  {kv : Key × V} {r : RevRecord} {t : Nat}

theorem Recorder.Ordered.fits_of_call (h : s.Ordered toV lin st commits) {p : Point V}
    (hp : p ∈ lin) {o : Recorded} (ho : s.ops[p.who]? = some o) : p.Fits toV o := by
  obtain ⟨o', ho', hf⟩ := h.fits p hp
  rw [ho] at ho'
  cases ho'
  exact hf

theorem mem_appended {o : Recorded} (hr : r ∈ o.progress.appended) :
    ∃ c, o.progress = .write c ∧ r ∈ c.appended := by
  cases hp : o.progress with
  | write c =>
    rw [hp] at hr
    exact ⟨c, rfl, hr⟩
  | list prefix_ revision range call snapshot =>
    rw [hp] at hr
    cases hr

/-- 一度しか書かれない組が log にあれば、その組を書く呼び出しは、その record の commit で効いている。 -/
theorem Recorder.Ordered.took_of_logged (h : s.Ordered toV lin st commits)
    (hreports : (issued reports).Perm (s.history toV))
    (hc : (countClientPuts reports).get kv ≤ 1)
    (hx : (r, t) ∈ s.store.committed.zip commits) (hkr : kv ∈ (requestOf toV r).puts)
    (he : e ∈ s.happened isRead toV lin) (hke : kv ∈ e.op.input.puts) :
    ∃ p ∈ lin, ∃ o, Took isRead toV s p o e ∧ p.time = t ∧ r ∈ o.progress.appended := by
  obtain ⟨p, hp, ht, o, ho, hr⟩ := h.committed (r, t) hx
  have hf := h.fits_of_call hp ho
  obtain ⟨c, hpc, hrc⟩ := mem_appended hr
  have hko : kv ∈ (o.progress.request toV).puts := by
    rw [hpc]
    exact ((hf.wrote c hpc r hrc).1.puts_eq toV) ▸ hkr
  rcases mem_happened.mp he with ⟨p', hp', o', htook⟩ | ⟨i, o', hlost⟩
  · have hke' : kv ∈ (o'.progress.request toV).puts := by
      rw [htook.eq, withReturn_input] at hke
      exact hke
    have hwho := index_unique hreports hc htook.call ho hke' hko
    obtain rfl : p' = p := List.inj_on_of_nodup_map h.nodup hp' hp hwho
    obtain rfl : o' = o := Option.some.inj (htook.call.symm.trans ho)
    exact ⟨p', hp', o', htook, ht, hr⟩
  · have hke' : kv ∈ (o'.progress.request toV).puts := by
      rw [hlost.eq, withReturn_input] at hke
      exact hke
    obtain rfl := index_unique hreports hc hlost.call ho hke' hko
    obtain rfl : o' = o := Option.some.inj (hlost.call.symm.trans ho)
    exact absurd (hlost.effective.symm.trans hf.effective) (by decide)

/-- 効いたが失敗した transaction は、record を一つ書いている。 -/
theorem Recorder.Ordered.appended_of_failed (hwrites : s.WriteInv) (h : s.Ordered toV lin st commits)
    {p : Point V} (hp : p ∈ lin) {o : Recorded} (htook : Took isRead toV s p o e)
    (hout : e.op.output = .failed) {request : TxnRequest V} (hin : e.op.input = .txn request) :
    ∃ c r, o.progress = .write c ∧ r ∈ c.appended ∧ r ∈ s.store.committed ∧
      (∀ r' ∈ c.appended, r' = r) ∧ Wrote c.op r.revision p.response ∧
      (requestOf toV r).puts = e.op.input.puts := by
  have hf := h.fits_of_call hp htook.call
  rw [htook.eq, withReturn_output] at hout
  have hin' : o.progress.request toV = .txn request := by
    rw [htook.eq, withReturn_input] at hin
    exact hin
  cases hpc : o.progress with
  | list prefix_ revision range call snapshot =>
    rw [hpc] at hin'
    cases hin'
  | write c =>
    have hne : c.appended ≠ [] := by
      have he := hf.effective
      rw [effective_write hpc fun t reply hr => ?_] at he
      · exact of_decide_eq_true he
      · have hresp : o.output = .response reply := by rw [Recorded.output, hr]
        cases hresp.symm.trans hout
    obtain ⟨hcall, -⟩ := hwrites.writes o (List.mem_of_getElem? htook.call) c hpc
    obtain ⟨r, hr⟩ := List.exists_mem_of_ne_nil _ hne
    obtain ⟨hby, hwrote⟩ := hf.wrote c hpc r hr
    refine ⟨c, r, rfl, hr, hcall.committed r hr, fun r' hr' => ?_, hwrote, ?_⟩
    · obtain ⟨x, hx⟩ := List.length_eq_one_iff.mp
        (le_antisymm hcall.once.atMostOne (List.length_pos_of_mem hr))
      rw [hx] at hr hr'
      rw [List.mem_singleton.mp hr, List.mem_singleton.mp hr']
    · rw [hby.puts_eq toV, htook.eq, withReturn_input]
      show _ = (o.progress.request toV).puts
      rw [hpc]
      rfl

/-- 効いた呼び出しの前のモデルの状態は、効いた順のその時点のものである。 -/
theorem Recorder.Ordered.response_at (hread : TellsWrites isRead) (hmatch : Accepts toV match_)
    (h : s.Ordered toV lin st commits) {nonLinearizable : Int} {pre post : List (Happened V Reply)}
    (hsplit : s.happened isRead toV lin = pre ++ e :: post) (hp : e.persisted = true)
    {st₀ : EtcdState V}
    (hst₀ : runSteps (EtcdState.follow match_ nonLinearizable) freshEtcdState
      (pre.map Happened.label) = some st₀) :
    ∃ p ∈ lin, ∃ o, Took isRead toV s p o e ∧ (st₀.step e.op.input).2 = p.response := by
  -- 書かれた呼び出しは、失われたものの側にはない
  have hlost : e ∉ (s.ops.filter (fun o => o.kept isRead toV && !o.effective)).map
      (fun o => (⟨withReturn (o.historyOp toV s.now), 2 * s.now, false⟩ : Happened V Reply)) := by
    rintro hmem
    obtain ⟨o, -, rfl⟩ := List.mem_map.mp hmem
    cases hp
  obtain ⟨as, htook⟩ : ∃ as, lin.filterMap (s.tookAt isRead toV) = pre ++ e :: as := by
    rcases List.append_eq_append_iff.mp hsplit with ⟨cs, -, hl⟩ | ⟨as, ht, hl⟩
    · exact absurd (hl ▸ List.mem_append_right _ List.mem_cons_self) hlost
    · cases as with
      | nil =>
        rw [List.nil_append] at hl
        exact absurd (hl ▸ List.mem_cons_self) hlost
      | cons x as =>
        cases hl
        exact ⟨as, ht⟩
  obtain ⟨l₁, l₂, rfl, hpre, hl₂⟩ := List.filterMap_eq_append_iff.mp htook
  obtain ⟨l₂', p, l₃, rfl, hnone, hsome, -⟩ := List.filterMap_eq_cons_iff.mp hl₂
  obtain ⟨o, ho⟩ := tookAt_eq_some.mp hsome
  have hmem : p ∈ l₁ ++ (l₂' ++ p :: l₃) := by simp
  refine ⟨p, hmem, o, ho, ?_⟩
  -- `p` の前の応答の列は、ちょうど `pre` をたどる
  have hanswered := h.answered
  rw [← List.append_assoc, runSteps_append] at hanswered
  obtain ⟨st₁, hst₁, hrest⟩ := Option.bind_eq_some_iff.mp hanswered
  obtain ⟨st₂, hst₂, -⟩ := runSteps_cons.mp hrest
  have hfollow := follow_took hread hmatch nonLinearizable (l₁ ++ l₂')
    (fun q hq => h.fits q (by
      rcases List.mem_append.mp hq with hq | hq
      · exact List.mem_append_left _ hq
      · exact List.mem_append_right _ (List.mem_append_left _ hq))) hst₁
  rw [List.filterMap_append, hpre, List.filterMap_eq_nil_iff.mpr hnone, List.append_nil,
    hst₀] at hfollow
  cases hfollow
  have hinput : e.op.input = p.request := by
    rw [ho.eq, withReturn_input]
    exact (h.fits_of_call hmem ho.call).request.symm
  unfold EtcdState.answer at hst₂
  split at hst₂
  · next hresponse => rw [hinput, hresponse]
  · cases hst₂

theorem Recorder.Ordered.mem_zip (h : s.Ordered toV lin st commits) (hr : r ∈ s.store.committed) :
    ∃ t, (r, t) ∈ s.store.committed.zip commits := by
  rw [← List.map_fst_zip (le_of_eq h.commitsLength.symm)] at hr
  obtain ⟨x, hx, rfl⟩ := List.mem_map.mp hr
  exact ⟨x.2, hx⟩

/-- 失敗した transaction が log にあるのは、書かれたときである。 -/
theorem Recorder.Ordered.logged_happened (hwrites : s.WriteInv) (h : s.Ordered toV lin st commits)
    (hreports : (issued reports).Perm (s.history toV)) (he : e ∈ s.happened isRead toV lin)
    (hout : e.op.output = .failed) {request : TxnRequest V} (hin : e.op.input = .txn request)
    (hu : isUniqueTxn request (countClientPuts reports) = true) :
    e.persisted = true ↔ ∃ kv ∈ putsOf request.operations,
      ∃ r ∈ s.store.committed.map (requestOf toV), kv ∈ r.puts := by
  have hputs : e.op.input.puts = putsOf request.operations := by rw [hin]; rfl
  have hone : putsOf request.operations ≠ [] ∧
      ∀ kv ∈ putsOf request.operations, (countClientPuts reports).get kv = 1 := by
    obtain ⟨o, ho⟩ : ∃ o : Recorded, e.op.input = o.progress.request toV := by
      rcases mem_happened.mp he with ⟨p, -, o, htook⟩ | ⟨i, o, hlost⟩
      · exact ⟨o, by rw [htook.eq, withReturn_input]; rfl⟩
      · exact ⟨o, by rw [hlost.eq, withReturn_input]; rfl⟩
    rw [hin] at ho
    cases hp : o.progress with
    | write c =>
      rw [hp] at ho
      exact requestFor_unique ho.symm hu
    | list prefix_ revision range call snapshot =>
      rw [hp] at ho
      cases ho
  constructor
  · intro hp
    rcases mem_happened.mp he with ⟨p, hpl, o, htook⟩ | ⟨i, o, hlost⟩
    · obtain ⟨c, r, -, -, hr, -, -, heq⟩ := h.appended_of_failed hwrites hpl htook hout hin
      obtain ⟨kv, hkv⟩ := List.exists_mem_of_ne_nil _ hone.1
      exact ⟨kv, hkv, _, List.mem_map_of_mem hr, by rw [heq, hputs]; exact hkv⟩
    · rw [hlost.eq] at hp
      cases hp
  · rintro ⟨kv, hkv, x, hx, hkx⟩
    obtain ⟨r, hr, rfl⟩ := List.mem_map.mp hx
    obtain ⟨t, ht⟩ := h.mem_zip hr
    obtain ⟨p, -, o, htook, -, -⟩ := h.took_of_logged hreports (le_of_eq (hone.2 kv hkv)) ht hkx he
      (by rw [hputs]; exact hkv)
    rw [htook.eq]

/-- watch の event の revision は、書いた呼び出しにモデルが返す revision である。 -/
theorem Recorder.Ordered.watched_happened (hread : TellsWrites isRead) (hmatch : Accepts toV match_)
    (hwrites : s.WriteInv) (h : s.Ordered toV lin st commits) (hreports : (issued reports).Perm (s.history toV))
    (hwatch : ∀ event ∈ watchEvents reports, ∃ r ∈ s.store.committed,
      event.toPersistedEvent = eventOf toV r)
    {nonLinearizable : Int} {pre post : List (Happened V Reply)}
    (hsplit : s.happened isRead toV lin = pre ++ e :: post) {st₀ : EtcdState V}
    (hst₀ : runSteps (EtcdState.follow match_ nonLinearizable) freshEtcdState
      (pre.map Happened.label) = some st₀)
    (hout : e.op.output = .failed) (hp : e.persisted = true) (hkv : kv ∈ e.op.input.puts)
    (hc : (countClientPuts reports).get kv = 1) {revision : Int}
    (hrev : putRevision reports kv = some revision) :
    (st₀.step e.op.input).2.revisionOr nonLinearizable = revision := by
  obtain ⟨p, hpl, o, htook, hresponse⟩ := h.response_at hread hmatch hsplit hp hst₀
  obtain ⟨request, hin⟩ : ∃ request, e.op.input = .txn request := by
    cases hin : e.op.input with
    | txn request => exact ⟨request, rfl⟩
    | _ =>
      rw [hin] at hkv
      cases hkv
  obtain ⟨c, r, hpc, hr, -, honly, hwrote, -⟩ := h.appended_of_failed hwrites hpl htook hout hin
  obtain ⟨results, hres⟩ := hwrote.txn
  -- event の record は、この呼び出しが書いたものである
  obtain ⟨event, hevent, htype, hkey, hvalue, rfl⟩ := putRevision_eq_some hrev
  obtain ⟨r', hr', heq⟩ := hwatch event hevent
  have hd : r'.record.isDelete = false := by
    rw [heq] at htype
    cases hd : r'.record.isDelete with
    | false => rfl
    | true => simp [eventOf, hd] at htype
  have hkr' : kv ∈ (requestOf toV r').puts := by
    have hpair : kv = (r'.key, toV r'.record.value) := by
      rw [heq] at hkey hvalue
      refine Prod.ext hkey.symm (Option.some.inj ?_)
      rw [← hvalue]
      simp [eventOf, hd]
    rw [hpair]
    exact mem_puts_requestOf hd
  obtain ⟨t, ht⟩ := h.mem_zip hr'
  obtain ⟨p', hpl', o', htook', -, hr''⟩ := h.took_of_logged hreports (le_of_eq hc) ht hkr'
    (hsplit ▸ List.mem_append_right _ List.mem_cons_self) hkv
  have hwho : p'.who = p.who := by
    refine index_unique hreports (le_of_eq hc) htook'.call htook.call ?_ ?_
    · rw [htook'.eq, withReturn_input] at hkv
      exact hkv
    · rw [htook.eq, withReturn_input] at hkv
      exact hkv
  have ho : o' = o := Option.some.inj (htook'.call.symm.trans (by rw [hwho]; exact htook.call))
  rw [ho, hpc] at hr''
  rw [hresponse, hres, heq, honly r' hr'']
  rfl

/-- 記録された履歴に実際に起きたことは、log と watch が伝える。 -/
theorem Recorder.Ordered.trueHistory (hread : TellsWrites isRead) (hmatch : Accepts toV match_)
    (hinv : s.Inv cfg) (hwrites : s.WriteInv) (h : s.Ordered toV lin st commits) (hshort : 2 * s.now < maxInt64)
    (hreports : (issued reports).Perm (s.history toV))
    (hwatch : ∀ event ∈ watchEvents reports, ∃ r ∈ s.store.committed,
      event.toPersistedEvent = eventOf toV r) (nonLinearizable : Int) :
    TrueHistory match_ nonLinearizable
      (prepareAndCategorizeOperations isRead reports).linearizable reports
      (s.store.committed.map (requestOf toV)) (s.happened isRead toV lin)
      (commits.map (fun t : Nat => 2 * (t : Int))) where
  perm := h.perm_happened hreports
  within := fun _ he => h.within_happened hinv hshort he
  sorted := h.sorted_happened
  explained := by
    rw [Recorder.happened, List.map_append, runSteps_append,
      follow_took hread hmatch nonLinearizable lin h.fits h.answered, Option.bind_some, follow_lost]
    · rfl
    · intro e he
      obtain ⟨o, ho, rfl⟩ := List.mem_map.mp he
      obtain ⟨ho, hk⟩ := List.mem_filter.mp ho
      obtain ⟨-, hn⟩ := (Bool.and_eq_true _ _).mp hk
      refine ⟨?_, rfl⟩
      rw [withReturn_output]
      exact lost_failed hinv ho (by simpa using hn)
  persistable := by
    intro x hx
    obtain ⟨r, -, rfl⟩ := List.mem_map.mp hx
    obtain ⟨request, hreq⟩ := requestOf_txn toV r
    rw [hreq]
    rfl
  length := by rw [List.length_map, List.length_map, h.commitsLength]
  increasing := by
    rw [List.pairwise_map]
    exact h.commitsIncreasing.imp fun {a b} hab => by omega
  ended := by
    intro x hx
    obtain ⟨t, ht, rfl⟩ := List.mem_map.mp hx
    rw [← List.map_snd_zip (le_of_eq h.commitsLength)] at ht
    obtain ⟨y, hy, rfl⟩ := List.mem_map.mp ht
    obtain ⟨p, hp, hpt, o, ho, hr⟩ := h.committed y hy
    obtain ⟨c, hpc, -⟩ := mem_appended hr
    have hmem : (⟨withReturn (o.historyOp toV s.now), 2 * p.time, true⟩ : Happened V Reply)
        ∈ s.happened isRead toV lin :=
      mem_happened.mpr (Or.inl ⟨p, hp, o, ho, kept_write hread hpc, rfl⟩)
    refine ⟨_, (h.perm_happened hreports).mem_iff.mp (List.mem_map_of_mem hmem), ?_⟩
    rw [← hpt]
    exact (h.within_happened hinv hshort hmem).2
  own := by
    intro x hx request hreq kv hkv hc e he hke
    rw [List.zip_map] at hx
    obtain ⟨⟨r, t⟩, hy, rfl⟩ := List.mem_map.mp hx
    have hkr : kv ∈ (requestOf toV r).puts := by
      rw [show requestOf toV r = .txn request from hreq]
      exact mem_puts_of_success hkv
    obtain ⟨p, -, o, htook, hpt, -⟩ := h.took_of_logged hreports hc hy hkr he hke
    rw [htook.eq, ← hpt]
    rfl
  logged := fun _ he hout _ hin hu => h.logged_happened hwrites hreports he hout hin hu
  watched := fun _ _ _ hsplit _ hst₀ hout hp _ hkv hc _ hrev =>
    h.watched_happened hread hmatch hwrites hreports hwatch hsplit hst₀ hout hp hkv hc hrev

/-- 補正は求まり、補正した履歴は線形化できる。 -/
theorem Recorder.Ordered.linearizable_patched (hread : TellsWrites isRead)
    (hmatch : Accepts toV match_) (hinv : s.Inv cfg) (hwrites : s.WriteInv)
    (h : s.Ordered toV lin st commits) (hshort : 2 * s.now < maxInt64)
    (hreports : (issued reports).Perm (s.history toV))
    (hwatch : ∀ event ∈ watchEvents reports, ∃ r ∈ s.store.committed,
      event.toPersistedEvent = eventOf toV r) (nonLinearizable : Int) :
    ∃ putReturnTime,
      uniquePutReturnTime (prepareAndCategorizeOperations isRead reports).linearizable
        (s.store.committed.map (requestOf toV)) (countClientPuts reports) = some putReturnTime ∧
      Linearizable (NonDeterministicState.step match_ nonLinearizable)
        NonDeterministicState.init
        (patchOperations (prepareAndCategorizeOperations isRead reports).linearizable
          (patchTables reports (s.store.committed.map (requestOf toV)) putReturnTime)) := by
  have htrue := h.trueHistory hread hmatch hinv hwrites hshort hreports hwatch nonLinearizable
  obtain ⟨putReturnTime, hunique, hn⟩ := uniquePutReturnTime_notBefore htrue
  exact ⟨putReturnTime, hunique, linearizable_of_trueHistory htrue hn⟩

end

theorem tellsWrites_readsOnly : TellsWrites (readsOnly : Request V → Bool) := fun request h => by
  rw [readsOnly, show request.operations.any _ = true from h]
  rfl

open Classical in
/-- 当たる答えのほかは合わないと言う、最も厳しい比べ方。 -/
noncomputable def exactMatch (toV : Bytes → V) (response : Response V) (reply : Reply) : Bool :=
  decide (Agrees toV response reply)

open Classical in
theorem accepts_exactMatch (toV : Bytes → V) : Accepts toV (exactMatch toV) :=
  fun _ _ h => decide_eq_true h

/-- 結果の分からない作成を、一覧と、断られる作成と、再試行が追う run。最後の更新の答えは届かない。その後で、更新の前の
revision を読む。 -/
def recordedRun : List RecorderLabel :=
  [.write 1 (.create [47, 97] [1] 0) 1, .list 2 [47] 0, .attempt 0 2 2 .unknownCommitted,
    .batch 1 10, .write 2 (.create [47, 97] [2] 0) 3, .attempt 2 4 3 .committed,
    .attempt 0 5 4 .committed, .write 1 (.update [47, 97] [3] 2 0) 6,
    .attempt 3 7 5 .unknownCommitted, .list 2 [47] 2, .batch 4 0, .batch 4 5]

/-- 二つの client の report。前者は log の event を watch で見る。 -/
def recordedReports (s : Recorder) : List (ClientReport Bytes Reply) :=
  [⟨1, (s.history id).filter (fun op => op.clientId = 1), [⟨⟨[47], 0, true, false⟩,
      [⟨s.store.committed.map (fun r => ⟨eventOf id r, none⟩), false, 0⟩]⟩]⟩,
    ⟨2, (s.history id).filter (fun op => ¬ op.clientId = 1), []⟩]

end KubeFdb.Robustness
