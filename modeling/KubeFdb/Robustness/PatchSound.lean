import KubeFdb.Robustness.PatchHistory

/-!
# 補正は線形化の判定を変えない

* `patch_never_hides` — 補正した履歴が線形化できるなら、元の履歴も線形化できる。補正は違反を隠さない
* `patch_never_invents` — log と watch が実際に起きたことを伝えるなら、補正した履歴は線形化できる
-/

namespace KubeFdb.Robustness

open Tuple

variable {V O : Type} {tables : PatchTables V} {op op' : HistoryOp V O}

/-! ## 補正のすること -/

theorem patchPut_persisted (acc : PatchState) (kv : Key × V) :
    (patchPut tables acc kv).persisted
      = (acc.persisted || (tables.persistedPutCount kv).isSome) := by
  unfold patchPut
  by_cases hp : (tables.persistedPutCount kv).isSome = true <;>
    by_cases hc : tables.clientPutCount.get kv = 1 <;> simp [hp, hc]

theorem patchPut_txnRevision (acc : PatchState) (kv : Key × V) :
    (patchPut tables acc kv).txnRevision
      = if tables.clientPutCount.get kv = 1 then
          (tables.watchRevision kv).getD acc.txnRevision else acc.txnRevision := by
  unfold patchPut
  by_cases hp : (tables.persistedPutCount kv).isSome = true <;>
    by_cases hc : tables.clientPutCount.get kv = 1 <;> simp [hp, hc]

theorem patchPut_ret (acc : PatchState) (kv : Key × V) :
    (patchPut tables acc kv).ret
      = if tables.clientPutCount.get kv = 1 then
          ((tables.putReturnTime kv).map (min acc.ret)).getD acc.ret else acc.ret := by
  unfold patchPut
  by_cases hp : (tables.persistedPutCount kv).isSome = true <;>
    by_cases hc : tables.clientPutCount.get kv = 1 <;>
      cases hr : tables.putReturnTime kv <;> simp [hp, hc]

theorem patchPut_ret_le (acc : PatchState) (kv : Key × V) : (patchPut tables acc kv).ret ≤ acc.ret := by
  rw [patchPut_ret]
  split
  · cases tables.putReturnTime kv with
    | none => exact le_rfl
    | some returnTime => exact min_le_left _ _
  · exact le_rfl

theorem foldl_patchPut_ret_le (kvs : List (Key × V)) (acc : PatchState) :
    (kvs.foldl (patchPut tables) acc).ret ≤ acc.ret := by
  induction kvs generalizing acc with
  | nil => rfl
  | cons kv kvs ih => exact (ih _).trans (patchPut_ret_le acc kv)

/-- 補正が一つの呼び出しにすることのすべて。 -/
inductive Patched (tables : PatchTables V) (op : HistoryOp V O) : Option (HistoryOp V O) → Prop
  /-- 答えのあった呼び出しと、transaction でない呼び出しは変えない。 -/
  | kept : Patched tables op (some op)
  /-- log にない transaction を除く。 -/
  | dropped (request : TxnRequest V) (hin : op.input = .txn request) (hout : op.output = .failed)
      (hunique : isUniqueTxn request tables.clientPutCount = true)
      (hnot : ((putsOf request.operations).foldl (patchPut tables) ⟨0, false, op.ret⟩).persisted
        = false) : Patched tables op none
  /-- log にある transaction を、書かれたものとする。 -/
  | marked (request : TxnRequest V) (hin : op.input = .txn request) (hout : op.output = .failed)
      (hunique : isUniqueTxn request tables.clientPutCount = true)
      (hpersisted : ((putsOf request.operations).foldl (patchPut tables)
        ⟨0, false, op.ret⟩).persisted = true) :
    Patched tables op (some { op with
      ret := ((putsOf request.operations).foldl (patchPut tables) ⟨0, false, op.ret⟩).ret
      output := .persisted
        ((putsOf request.operations).foldl (patchPut tables) ⟨0, false, op.ret⟩).txnRevision })
  /-- 行方の分からない transaction の終わりを早める。 -/
  | hastened (request : TxnRequest V) (hin : op.input = .txn request) (hout : op.output = .failed) :
    Patched tables op (some { op with
      ret := ((putsOf request.operations).foldl (patchPut tables) ⟨0, false, op.ret⟩).ret })

theorem patchOperation_patched (tables : PatchTables V) (op : HistoryOp V O) :
    Patched tables op (patchOperation tables op) := by
  unfold patchOperation
  split
  · next request hout hin =>
    dsimp only
    split
    · next hunique =>
      split
      · next hnot => exact .dropped request hin hout hunique (by simpa using hnot)
      · next hp => exact .marked request hin hout hunique (by simpa using hp)
    · exact .hastened request hin hout
  · exact .kept

/-- 仕分けた呼び出しのうち、失敗したものの終わりの時刻は最大である。 -/
theorem prepared_ret_of_failed {isRead : Request V → Bool} {reports : List (ClientReport V O)}
    (h : op ∈ (prepareAndCategorizeOperations isRead reports).linearizable)
    (hf : op.output = .failed) : op.ret = maxInt64 := by
  rw [prepare_linearizable] at h
  obtain ⟨x, -, rfl⟩ := List.mem_map.mp h
  rw [withReturn_output] at hf
  exact withReturn_of_failed (by rw [hf]; rfl)

/-- 時刻が int64 なら、失敗した呼び出しは最後まで終わらない。 -/
theorem prepared_call_le_ret {isRead : Request V → Bool} {reports : List (ClientReport V O)}
    (hint : ∀ op ∈ issued reports, op.call ≤ maxInt64) {op a : HistoryOp V O}
    (hop : op ∈ (prepareAndCategorizeOperations isRead reports).linearizable)
    (hout : op.output = .failed)
    (ha : a ∈ (prepareAndCategorizeOperations isRead reports).linearizable) : a.call ≤ op.ret := by
  rw [prepared_ret_of_failed hop hout]
  rw [prepare_linearizable] at ha
  obtain ⟨x, hx, rfl⟩ := List.mem_map.mp ha
  rw [withReturn_call]
  exact hint x (List.mem_of_mem_filter hx)

/-! ## 補正は違反を隠さない -/

section

variable {matchResponse : Response V → O → Bool} {nonLinearizable : Int}
  {states other : NonDeterministicState V} {request : Request V} {response : Observed O}

/-- 失敗した request は、どの行方もありうる。 -/
theorem destined_failed {s t : EtcdState V} {persisted : Bool}
    (h : s.destined matchResponse nonLinearizable request response persisted = some t) :
    ∃ persisted', s.destined matchResponse nonLinearizable request .failed persisted' = some t := by
  cases persisted with
  | true =>
    refine ⟨true, ?_⟩
    simp only [EtcdState.destined] at h ⊢
    split at h
    · simpa [Observed.agrees] using h
    · cases h
  | false =>
    refine ⟨false, ?_⟩
    cases response with
    | failed => exact h
    | persisted revision => cases h
    | response o => cases h

variable [DecidableEq V]

/-- 状態が多く、観測が少ないほど、次の状態は多い。 -/
theorem newStates_subset (h : states ⊆ other) {weaker : Observed O}
    (hw : weaker = response ∨ weaker = .failed) :
    states.newStates matchResponse nonLinearizable request response ⊆
      other.newStates matchResponse nonLinearizable request weaker := by
  intro t ht
  rw [NonDeterministicState.mem_newStates] at ht ⊢
  obtain ⟨s, hs, persisted, hd⟩ := ht
  refine ⟨s, h hs, ?_⟩
  rcases hw with rfl | rfl
  · exact ⟨persisted, hd⟩
  · exact destined_failed hd

theorem step_of_subset (h : states ⊆ other) {states' : NonDeterministicState V} {weaker : Observed O}
    (hw : weaker = response ∨ weaker = .failed)
    (hs : states.step matchResponse nonLinearizable request response = some states') :
    ∃ other', other.step matchResponse nonLinearizable request weaker = some other' ∧
      states' ⊆ other' ∧ states' ≠ [] := by
  rw [NonDeterministicState.step_eq_possibleStep] at hs
  obtain ⟨rfl, hne⟩ := possibleStep_eq_some.mp hs
  have hsub : states.newStates matchResponse nonLinearizable request response ⊆
      other.newStates matchResponse nonLinearizable request weaker := newStates_subset h hw
  refine ⟨_, ?_, hsub, hne⟩
  rw [NonDeterministicState.step_eq_possibleStep]
  refine possibleStep_eq_some.mpr ⟨rfl, fun hnil => ?_⟩
  obtain ⟨t, ht⟩ := List.exists_mem_of_ne_nil _ hne
  exact absurd (hnil ▸ hsub ht) List.not_mem_nil

/-- 失敗した request の後も、前の状態は残る。 -/
theorem step_failed (request : Request V) (h : states ⊆ other) (hne : states ≠ []) :
    ∃ other', other.step matchResponse nonLinearizable request (.failed : Observed O) = some other' ∧
      states ⊆ other' := by
  have hsub : states ⊆ other.newStates matchResponse nonLinearizable request (.failed : Observed O) := by
    intro t ht
    exact (NonDeterministicState.mem_newStates _ _ _ _ _ _).mpr ⟨t, h ht, false, rfl⟩
  refine ⟨_, ?_, hsub⟩
  rw [NonDeterministicState.step_eq_possibleStep]
  refine possibleStep_eq_some.mpr ⟨rfl, fun hnil => ?_⟩
  obtain ⟨t, ht⟩ := List.exists_mem_of_ne_nil _ hne
  exact absurd (hnil ▸ hsub ht) List.not_mem_nil

/-- 失敗した呼び出しが最後まで終わらない履歴では、補正した履歴の線形化から、元の履歴の線形化が得られる。 -/
theorem linearizable_of_patchOperations {ops : List (HistoryOp V O)} (tables : PatchTables V)
    (hret : ∀ op ∈ ops, op.output = .failed → ∀ a ∈ ops, a.call ≤ op.ret)
    (hl : Linearizable (NonDeterministicState.step matchResponse nonLinearizable)
      NonDeterministicState.init (patchOperations ops tables)) :
    Linearizable (NonDeterministicState.step matchResponse nonLinearizable)
      NonDeterministicState.init ops := by
  refine Linearizable.of_filterMap
    (R := fun (states other : NonDeterministicState V) => states ⊆ other ∧ states ≠ [])
    ⟨List.Subset.refl _, List.cons_ne_nil _ _⟩ ?_ ?_ ?_ ?_ hl
  · intro op _ op' hop
    have hcase := patchOperation_patched tables op
    rw [hop] at hcase
    cases hcase with
    | kept => exact ⟨le_rfl, le_rfl⟩
    | marked request hin hout hunique hpersisted => exact ⟨le_rfl, foldl_patchPut_ret_le _ _⟩
    | hastened request hin hout => exact ⟨le_rfl, foldl_patchPut_ret_le _ _⟩
  · rintro op _ op' s s' t hop ⟨hsub, -⟩ hs
    have hcase := patchOperation_patched tables op
    rw [hop] at hcase
    have hw : op'.input = op.input ∧ (op.output = op'.output ∨ op.output = .failed) := by
      cases hcase with
      | kept => exact ⟨rfl, Or.inl rfl⟩
      | marked request hin hout hunique hpersisted => exact ⟨rfl, Or.inr hout⟩
      | hastened request hin hout => exact ⟨rfl, Or.inl rfl⟩
    rw [TimedOp.step, hw.1] at hs
    exact step_of_subset hsub hw.2 hs
  · intro op hop hnone
    have hcase := patchOperation_patched tables op
    rw [hnone] at hcase
    cases hcase with
    | dropped request hin hout hunique hnot => exact hret op hop hout
  · rintro op hop hnone s t ⟨hsub, hne⟩
    have hcase := patchOperation_patched tables op
    rw [hnone] at hcase
    cases hcase with
    | dropped request hin hout hunique hnot =>
      rw [TimedOp.step, hout]
      obtain ⟨t', ht', hsub'⟩ := step_failed op.input hsub hne
      exact ⟨t', ht', hsub', hne⟩

/-- **補正は違反を隠さない。** 補正した履歴が線形化できるなら、補正する前の履歴も線形化できる。時刻は int64 で
あるとする。 -/
theorem patch_never_hides (matchResponse : Response V → O → Bool) (nonLinearizable : Int)
    (isRead : Request V → Bool) (reports : List (ClientReport V O)) (requests : List (Request V))
    (hint : ∀ op ∈ issued reports, op.call ≤ maxInt64) (patched : List (HistoryOp V O))
    (hp : patchLinearizableOperations (prepareAndCategorizeOperations isRead reports).linearizable
      reports requests = some patched)
    (hl : Linearizable (NonDeterministicState.step matchResponse nonLinearizable)
      NonDeterministicState.init patched) :
    Linearizable (NonDeterministicState.step matchResponse nonLinearizable)
      NonDeterministicState.init
      (prepareAndCategorizeOperations isRead reports).linearizable := by
  obtain ⟨putReturnTime, -, rfl⟩ := Option.map_eq_some_iff.mp hp
  exact linearizable_of_patchOperations _
    (fun _ hop hout _ ha => prepared_call_le_ret hint hop hout ha) hl

end

/-- 行方の分からない put が書かれた log。 -/
def lostPutLog : List (Request Nat) := [answeredPut.input, lostPut.input, laterPut.input]

/-- 補正した履歴。行方の分からない put は、後の put が終わるより前に、revision 3 で書かれている。 -/
def patchedLostPut : List (HistoryOp Nat (Response Nat)) :=
  [answeredPut, { lostPut with ret := 8, output := .persisted 3 }, laterPut]

/-- 行方の分からない put を補正した履歴。 -/
theorem patch_never_hides_of_lostPut :
    patchLinearizableOperations
        (prepareAndCategorizeOperations readsOnly lostPutReports).linearizable lostPutReports
        lostPutLog = some patchedLostPut ∧
      Linearizable (NonDeterministicState.step (fun r o => decide (r = o)) 0)
        NonDeterministicState.init
        (prepareAndCategorizeOperations readsOnly lostPutReports).linearizable := by
  have hp : patchLinearizableOperations
      (prepareAndCategorizeOperations readsOnly lostPutReports).linearizable lostPutReports
      lostPutLog = some patchedLostPut := by decide +kernel
  exact ⟨hp, patch_never_hides _ 0 readsOnly lostPutReports lostPutLog (by decide) patchedLostPut hp
    ⟨patchedLostPut, List.Perm.refl _, by decide, by decide +kernel⟩⟩

/-! ## 組の数え方 -/

section

variable [DecidableEq V] {kv : Key × V}

theorem KvMap.set_self (m : KvMap V) (kv : Key × V) (n : Int) : m.set kv n kv = some n :=
  Function.update_self _ _ _

theorem KvMap.set_of_ne (m : KvMap V) {kv kv' : Key × V} (n : Int) (h : kv' ≠ kv) :
    m.set kv n kv' = m kv' :=
  Function.update_of_ne h _ _

/-- 数えた組は、表にある。数は、書かれた回数である。 -/
theorem foldl_count (kvs : List (Key × V)) (counter : KvMap V) (kv : Key × V) :
    (kvs.foldl (fun counter kv => counter.set kv (counter.get kv + 1)) counter).get kv
        = counter.get kv + kvs.count kv ∧
      ((kvs.foldl (fun counter kv => counter.set kv (counter.get kv + 1)) counter kv).isSome = true
        ↔ (counter kv).isSome = true ∨ kv ∈ kvs) := by
  induction kvs generalizing counter with
  | nil => simp
  | cons x kvs ih =>
    rw [List.foldl_cons]
    obtain ⟨hget, hsome⟩ := ih (counter.set x (counter.get x + 1))
    rw [hget, hsome]
    by_cases hx : kv = x
    · subst hx
      simp only [KvMap.get, KvMap.set_self, Option.getD_some, List.count_cons_self,
        Option.isSome_some, true_or, List.mem_cons, or_true, and_true]
      push_cast
      omega
    · simp [KvMap.get, KvMap.set_of_ne _ _ hx, List.count_cons_of_ne (Ne.symm hx), hx]

theorem countClientPuts_get (reports : List (ClientReport V O)) (kv : Key × V) :
    (countClientPuts reports).get kv
      = ((issued reports).flatMap (fun op => op.input.puts)).count kv := by
  have hfold : ∀ (ops : List (HistoryOp V O)) (counter : KvMap V),
      (ops.foldl (fun counter op => countPuts counter op.input) counter).get kv
        = counter.get kv + (ops.flatMap (fun op => op.input.puts)).count kv := by
    intro ops
    induction ops with
    | nil => simp
    | cons op ops ih =>
      intro counter
      rw [List.foldl_cons, ih, countPuts, (foldl_count _ _ _).1, List.flatMap_cons,
        List.count_append]
      push_cast
      omega
  rw [countClientPuts, hfold]
  exact zero_add _

theorem countPersistedPuts_isSome (requests : List (Request V)) (kv : Key × V) :
    (countPersistedPuts requests kv).isSome = true ↔ ∃ r ∈ requests, kv ∈ r.puts := by
  have hfold : ∀ (requests : List (Request V)) (counter : KvMap V),
      (requests.foldl countPuts counter kv).isSome = true ↔
        (counter kv).isSome = true ∨ ∃ r ∈ requests, kv ∈ r.puts := by
    intro requests
    induction requests with
    | nil => simp
    | cons r requests ih =>
      intro counter
      rw [List.foldl_cons, ih, countPuts, (foldl_count _ _ _).2, or_assoc]
      simp
  rw [countPersistedPuts, hfold]
  simp [KvMap.empty]

/-- 一度しか書かれない組を書く呼び出しは、一つしかない。 -/
theorem issued_unique {reports : List (ClientReport V O)} (hc : (countClientPuts reports).get kv ≤ 1)
    {a b : HistoryOp V O} (ha : a ∈ issued reports) (hb : b ∈ issued reports)
    (hka : kv ∈ a.input.puts) (hkb : kv ∈ b.input.puts) : a = b := by
  rw [countClientPuts_get] at hc
  by_contra hne
  have htwo : ∀ x y : HistoryOp V O, kv ∈ x.input.puts → kv ∈ y.input.puts →
      [x, y].Sublist (issued reports) → False := by
    intro x y hx hy hsub
    have hle := (hsub.flatMap (fun op : HistoryOp V O => op.input.puts)).count_le kv
    have h₁ := List.count_pos_iff.mpr hx
    have h₂ := List.count_pos_iff.mpr hy
    simp only [List.flatMap_cons, List.flatMap_nil, List.append_nil, List.count_append] at hle
    omega
  rcases pair_sublist_or ha hb hne with h | h
  · exact htwo a b hka hkb h
  · exact htwo b a hkb hka h

end

theorem mem_puts_of_success {request : TxnRequest V} {kv : Key × V}
    (h : kv ∈ putsOf request.operationsOnSuccess) : kv ∈ (Request.txn request).puts := by
  rw [Request.puts, TxnRequest.operations, putsOf, List.filterMap_append]
  exact List.mem_append_left _ h

/-! ## 実際の履歴 -/

/-- 実際に起きた呼び出し。`point` は効いた時点、`persisted` は書かれたかどうかである。 -/
structure Happened (V O : Type) where
  op : HistoryOp V O
  point : Int
  persisted : Bool

def Happened.label (e : Happened V O) : (Request V × Observed O) × Bool :=
  ((e.op.input, e.op.output), e.persisted)

/-- log に残りうる request。読み出しは残らない。 -/
def Request.isPersistable : Request V → Bool
  | .range _ _ => false
  | .defragment => false
  | _ => true

section

variable [DecidableEq V]

/-- 履歴 `ops` に実際に起きたことと、log と watch がそれを正しく伝えること。`commits` は log の request が書かれた
時刻である。 -/
structure TrueHistory (matchResponse : Response V → O → Bool) (nonLinearizable : Int)
    (ops : List (HistoryOp V O)) (reports : List (ClientReport V O)) (requests : List (Request V))
    (happened : List (Happened V O)) (commits : List Int) : Prop where
  perm : (happened.map Happened.op).Perm ops
  within : ∀ e ∈ happened, e.op.call ≤ e.point ∧ e.point < e.op.ret
  sorted : happened.Pairwise (fun a b => a.point ≤ b.point)
  explained : (runSteps (EtcdState.follow matchResponse nonLinearizable) freshEtcdState
    (happened.map Happened.label)).isSome = true
  persistable : ∀ r ∈ requests, r.isPersistable = true
  length : commits.length = requests.length
  /-- 二つの request は同じ時刻に書かれない。 -/
  increasing : commits.Pairwise (· < ·)
  /-- 最後の request が書かれた後に終わった呼び出しがある。 -/
  ended : ∀ t ∈ commits, ∃ op ∈ ops, t < op.ret
  /-- 一度しか書かれない組が log にあれば、その組を書く呼び出しが、その時刻に書いたものである。 -/
  own : ∀ p ∈ requests.zip commits, ∀ request, p.1 = .txn request →
    ∀ kv ∈ putsOf request.operationsOnSuccess, (countClientPuts reports).get kv ≤ 1 →
      ∀ e ∈ happened, kv ∈ e.op.input.puts → e.point = p.2
  /-- 行方の分からない transaction は、書かれたときに限って log にある。 -/
  logged : ∀ e ∈ happened, e.op.output = .failed → ∀ request, e.op.input = .txn request →
    isUniqueTxn request (countClientPuts reports) = true →
      (e.persisted = true ↔ ∃ kv ∈ putsOf request.operations, ∃ r ∈ requests, kv ∈ r.puts)
  /-- watch の event の revision は、書いた transaction の revision である。 -/
  watched : ∀ pre e post, happened = pre ++ e :: post → ∀ s,
    runSteps (EtcdState.follow matchResponse nonLinearizable) freshEtcdState
      (pre.map Happened.label) = some s → e.op.output = .failed → e.persisted = true →
    ∀ kv ∈ e.op.input.puts, (countClientPuts reports).get kv = 1 →
      ∀ revision, putRevision reports kv = some revision →
        (s.step e.op.input).2.revisionOr nonLinearizable = revision

end

/-! ## 終わりの時刻は、効いた時点より前にならない -/

section

variable [DecidableEq V] {clientPutCount : KvMap V} {acc acc' : KvMap V × Int}
  {happened : List (Happened V O)} {kv : Key × V} {t : Int}

/-- 前半の loop の後の表。 -/
theorem foldl_recordReturnTime (clientPutCount : KvMap V) (ops : List (HistoryOp V O))
    (acc : KvMap V × Int) :
    (∀ kv returnTime, (ops.foldl (recordReturnTime clientPutCount) acc).1 kv = some returnTime →
      acc.1 kv = some returnTime ∨ ∃ op ∈ ops, kv ∈ op.input.puts ∧ returnTime = op.ret) ∧
    acc.2 ≤ (ops.foldl (recordReturnTime clientPutCount) acc).2 ∧
    ∀ op ∈ ops, op.ret ≤ (ops.foldl (recordReturnTime clientPutCount) acc).2 := by
  have hputs : ∀ (kvs : List (Key × V)) (m : KvMap V) (ret : Int) (kv : Key × V) (r : Int),
      kvs.foldl (fun earliest kv =>
        if 1 < clientPutCount.get kv then earliest else earliest.set kv ret) m kv = some r →
      m kv = some r ∨ (kv ∈ kvs ∧ r = ret) := by
    intro kvs
    induction kvs with
    | nil => exact fun m ret kv r h => Or.inl h
    | cons x kvs ih =>
      intro m ret kv r h
      rcases ih _ ret kv r h with h | ⟨hm, hr⟩
      · dsimp only at h
        split at h
        · exact Or.inl h
        · by_cases hx : kv = x
          · rw [hx, KvMap.set_self] at h
            exact Or.inr ⟨hx ▸ List.mem_cons_self, (Option.some.inj h).symm⟩
          · rw [KvMap.set_of_ne _ _ hx] at h
            exact Or.inl h
      · exact Or.inr ⟨List.mem_cons_of_mem _ hm, hr⟩
  induction ops generalizing acc with
  | nil => exact ⟨fun kv r h => Or.inl h, le_rfl, fun op hop => absurd hop List.not_mem_nil⟩
  | cons op ops ih =>
    rw [List.foldl_cons]
    obtain ⟨hmap, hlast, hall⟩ := ih (recordReturnTime clientPutCount acc op)
    have hstep : acc.2 ≤ (recordReturnTime clientPutCount acc op).2 ∧
        op.ret ≤ (recordReturnTime clientPutCount acc op).2 := by
      simp only [recordReturnTime]
      split <;> omega
    refine ⟨fun kv r h => ?_, hstep.1.trans hlast, fun x hx => ?_⟩
    · rcases hmap kv r h with h | ⟨x, hx, hk, hr⟩
      · rcases hputs _ _ _ _ _ h with h | ⟨hk, hr⟩
        · exact Or.inl h
        · exact Or.inr ⟨op, List.mem_cons_self, hk, hr⟩
      · exact Or.inr ⟨x, List.mem_cons_of_mem _ hx, hk, hr⟩
    · rcases List.mem_cons.mp hx with rfl | hx
      · exact hstep.2.trans hlast
      · exact hall x hx

/-- 表の時刻が、その組を書く呼び出しの効いた時点より前でないこと。 -/
structure NotBefore (clientPutCount : KvMap V) (happened : List (Happened V O)) (m : KvMap V) :
    Prop where
  times : ∀ kv returnTime, m kv = some returnTime → clientPutCount.get kv ≤ 1 →
    ∀ e ∈ happened, kv ∈ e.op.input.puts → e.point ≤ returnTime
  known : ∀ kv returnTime, m kv = some returnTime → ∃ e ∈ happened, kv ∈ e.op.input.puts

/-- log の put 一つ分。この put の組を書く呼び出しは、時刻 `t` に効いている。 -/
theorem lowerReturnTime_notBefore (h : NotBefore clientPutCount happened acc.1) (ht : t ≤ acc.2)
    (hown : clientPutCount.get kv ≤ 1 → ∀ e ∈ happened, kv ∈ e.op.input.puts → e.point = t) :
    NotBefore clientPutCount happened (lowerReturnTime clientPutCount acc kv).1 ∧
      t ≤ (lowerReturnTime clientPutCount acc kv).2 := by
  unfold lowerReturnTime
  split
  · exact ⟨h, ht⟩
  · next hc =>
    rw [not_lt] at hc
    split
    · exact ⟨h, ht⟩
    · next returnTime hm =>
      obtain ⟨e, he, hk⟩ := h.known kv returnTime hm
      have hle : t ≤ min returnTime acc.2 :=
        le_min (hown hc e he hk ▸ h.times kv returnTime hm hc e he hk) ht
      dsimp only
      refine ⟨⟨fun kv' r hr hc' e' he' hk' => ?_, fun kv' r hr => ?_⟩, hle⟩
      · by_cases hx : kv' = kv
        · rw [hx] at hr hk'
          rw [KvMap.set_self] at hr
          rw [hown hc e' he' hk', ← Option.some.inj hr]
          exact hle
        · rw [KvMap.set_of_ne _ _ hx] at hr
          exact h.times kv' r hr hc' e' he' hk'
      · by_cases hx : kv' = kv
        · exact ⟨e, he, hx ▸ hk⟩
        · rw [KvMap.set_of_ne _ _ hx] at hr
          exact h.known kv' r hr

theorem foldl_lowerReturnTime_notBefore : ∀ {kvs : List (Key × V)} {acc : KvMap V × Int},
    NotBefore clientPutCount happened acc.1 → t ≤ acc.2 →
    (∀ kv ∈ kvs, clientPutCount.get kv ≤ 1 → ∀ e ∈ happened, kv ∈ e.op.input.puts → e.point = t) →
    NotBefore clientPutCount happened (kvs.foldl (lowerReturnTime clientPutCount) acc).1 ∧
      t ≤ (kvs.foldl (lowerReturnTime clientPutCount) acc).2
  | [], _, h, ht, _ => ⟨h, ht⟩
  | kv :: kvs, acc, h, ht, hown => by
    obtain ⟨h', ht'⟩ := lowerReturnTime_notBefore h ht (hown kv List.mem_cons_self)
    rw [List.foldl_cons]
    exact foldl_lowerReturnTime_notBefore h' ht' (fun x hx => hown x (List.mem_cons_of_mem _ hx))

/-- log の request 一つ分。残りの request が書かれた時刻は、いつも `lastReturnTime` より前である。 -/
theorem walkBack_notBefore {request : Request V} (hp : request.isPersistable = true)
    (h : NotBefore clientPutCount happened acc.1) (ht : t < acc.2)
    (hown : ∀ r, request = .txn r → ∀ kv ∈ putsOf r.operationsOnSuccess,
      clientPutCount.get kv ≤ 1 → ∀ e ∈ happened, kv ∈ e.op.input.puts → e.point = t) :
    ∃ acc', walkBack clientPutCount acc request = some acc' ∧
      NotBefore clientPutCount happened acc'.1 ∧ t ≤ acc'.2 := by
  cases request with
  | txn r =>
    have hlast : t ≤ if acc.2 ≠ maxInt64 then acc.2 - 1 else acc.2 := by
      split <;> omega
    exact ⟨_, rfl, foldl_lowerReturnTime_notBefore h hlast (hown r rfl)⟩
  | leaseGrant leaseID => exact ⟨acc, rfl, h, ht.le⟩
  | leaseRevoke leaseID => exact ⟨acc, rfl, h, ht.le⟩
  | compact revision => exact ⟨acc, rfl, h, ht.le⟩
  | range options revision => cases hp
  | defragment => cases hp

/-- 後半の loop 全体。log を後ろから読む。 -/
theorem foldlM_walkBack_notBefore (log : List (Request V × Int))
    (hp : ∀ p ∈ log, p.1.isPersistable = true)
    (hincr : (log.map Prod.snd).Pairwise (· < ·))
    (hown : ∀ p ∈ log, ∀ r, p.1 = .txn r → ∀ kv ∈ putsOf r.operationsOnSuccess,
      clientPutCount.get kv ≤ 1 → ∀ e ∈ happened, kv ∈ e.op.input.puts → e.point = p.2) :
    ∀ {acc : KvMap V × Int}, NotBefore clientPutCount happened acc.1 → (∀ p ∈ log, p.2 < acc.2) →
      ∃ acc', (log.map Prod.fst).reverse.foldlM (walkBack clientPutCount) acc = some acc' ∧
        NotBefore clientPutCount happened acc'.1 := by
  induction log using List.reverseRecOn with
  | nil => exact fun {acc} h _ => ⟨acc, rfl, h⟩
  | append_singleton log p ih =>
    intro acc h hlast
    rw [List.map_append, List.pairwise_append] at hincr
    have hmem : ∀ q ∈ log, q ∈ log ++ [p] := fun q hq => List.mem_append_left _ hq
    have hpmem : p ∈ log ++ [p] := List.mem_append_right _ List.mem_cons_self
    obtain ⟨acc₁, hw, h₁, ht₁⟩ := walkBack_notBefore (hp p hpmem) h (hlast p hpmem) (hown p hpmem)
    have hrest : ∀ q ∈ log, q.2 < acc₁.2 := fun q hq =>
      (hincr.2.2 q.2 (List.mem_map_of_mem hq) p.2 List.mem_cons_self).trans_le ht₁
    obtain ⟨acc', hr, h'⟩ := ih (fun q hq => hp q (hmem q hq)) hincr.1
      (fun q hq => hown q (hmem q hq)) h₁ hrest
    refine ⟨acc', ?_, h'⟩
    rw [List.map_append, List.reverse_append]
    show (p.1 :: (log.map Prod.fst).reverse).foldlM _ acc = _
    rw [List.foldlM_cons, hw]
    exact hr

end

/-! ## 補正は違反を作らない -/

section

variable {acc : PatchState}

theorem foldl_patchPut_persisted (kvs : List (Key × V)) (acc : PatchState) :
    (kvs.foldl (patchPut tables) acc).persisted = true ↔
      acc.persisted = true ∨ ∃ kv ∈ kvs, (tables.persistedPutCount kv).isSome = true := by
  induction kvs generalizing acc with
  | nil => simp
  | cons kv kvs ih =>
    rw [List.foldl_cons, ih, patchPut_persisted, Bool.or_eq_true, or_assoc]
    simp

/-- 付けた revision は 0 か、一度しか書かれない組の event のものである。 -/
theorem foldl_patchPut_txnRevision (tables : PatchTables V) (kvs : List (Key × V)) (acc : PatchState) :
    (kvs.foldl (patchPut tables) acc).txnRevision = acc.txnRevision ∨
      ∃ kv ∈ kvs, tables.clientPutCount.get kv = 1 ∧
        tables.watchRevision kv = some (kvs.foldl (patchPut tables) acc).txnRevision := by
  induction kvs generalizing acc with
  | nil => exact Or.inl rfl
  | cons kv kvs ih =>
    rw [List.foldl_cons]
    rcases ih (patchPut tables acc kv) with h | ⟨x, hx, hc, hw⟩
    · rw [h]
      rw [patchPut_txnRevision]
      by_cases hc : tables.clientPutCount.get kv = 1
      · rw [if_pos hc]
        cases hw : tables.watchRevision kv with
        | none => exact Or.inl rfl
        | some revision => exact Or.inr ⟨kv, List.mem_cons_self, hc, hw⟩
      · rw [if_neg hc]
        exact Or.inl rfl
    · exact Or.inr ⟨x, List.mem_cons_of_mem _ hx, hc, hw⟩

theorem le_foldl_patchPut_ret {point : Int} : ∀ {kvs : List (Key × V)} {acc : PatchState},
    point ≤ acc.ret → (∀ kv ∈ kvs, tables.clientPutCount.get kv = 1 →
      ∀ returnTime, tables.putReturnTime kv = some returnTime → point ≤ returnTime) →
    point ≤ (kvs.foldl (patchPut tables) acc).ret
  | [], _, h, _ => h
  | kv :: kvs, acc, h, hall => by
    rw [List.foldl_cons]
    refine le_foldl_patchPut_ret ?_ (fun x hx => hall x (List.mem_cons_of_mem _ hx))
    rw [patchPut_ret]
    split
    · next hc =>
      cases hr : tables.putReturnTime kv with
      | none => exact h
      | some returnTime => exact le_min h (hall kv List.mem_cons_self hc returnTime hr)
    · exact h

end

section

variable [DecidableEq V] {matchResponse : Response V → O → Bool} {nonLinearizable : Int}
  {ops : List (HistoryOp V O)} {reports : List (ClientReport V O)} {requests : List (Request V)}
  {happened : List (Happened V O)} {commits : List Int} {putReturnTime : KvMap V}

/-- 補正した終わりの時刻は、効いた時点より前にならない。 -/
theorem patched_within (h : TrueHistory matchResponse nonLinearizable ops reports requests happened
      commits) (hn : NotBefore (countClientPuts reports) happened putReturnTime)
    {e : Happened V O} (he : e ∈ happened)
    (hop : patchOperation (patchTables reports requests putReturnTime) e.op = some op') :
    op'.call ≤ e.point ∧ e.point ≤ op'.ret := by
  obtain ⟨hcall, hret⟩ := h.within e he
  have hle : ∀ request, e.op.input = .txn request →
      e.point ≤ ((putsOf request.operations).foldl
        (patchPut (patchTables reports requests putReturnTime)) ⟨0, false, e.op.ret⟩).ret := by
    intro request hin
    refine le_foldl_patchPut_ret hret.le fun kv hkv hc returnTime hr => ?_
    exact hn.times kv returnTime hr (le_of_eq hc) e he (by rw [hin]; exact hkv)
  have hcase := patchOperation_patched (patchTables reports requests putReturnTime) e.op
  rw [hop] at hcase
  cases hcase with
  | kept => exact ⟨hcall, hret.le⟩
  | marked request hin hout hunique hpersisted => exact ⟨hcall, hle request hin⟩
  | hastened request hin hout => exact ⟨hcall, hle request hin⟩

/-- 実際の行方は、補正した履歴も説明する。 -/
theorem patched_explains (h : TrueHistory matchResponse nonLinearizable ops reports requests happened
      commits) (putReturnTime : KvMap V) : ∀ (pre post : List (Happened V O)) {s t : EtcdState V},
    happened = pre ++ post →
    runSteps (EtcdState.follow matchResponse nonLinearizable) freshEtcdState
      (pre.map Happened.label) = some s →
    runSteps (EtcdState.follow matchResponse nonLinearizable) s (post.map Happened.label) = some t →
    Explains (fun s (a : Request V × Observed O) t => ∃ persisted,
        s.destined matchResponse nonLinearizable a.1 a.2 persisted = some t) s
      (((post.map Happened.op).filterMap
        (patchOperation (patchTables reports requests putReturnTime))).map
          (fun op => (op.input, op.output))) t
  | pre, [], s, t, _, _, hr => (Option.some.inj hr).symm
  | pre, e :: post, s, t, hsplit, hpre, hr => by
    have he : e ∈ happened := by rw [hsplit]; exact List.mem_append_right _ List.mem_cons_self
    rw [List.map_cons] at hr
    obtain ⟨s₁, hs, hr⟩ := runSteps_cons.mp hr
    have hrest := patched_explains h putReturnTime (pre ++ [e]) post (by rw [hsplit]; simp)
      (by rw [List.map_append]; exact (runSteps_concat hpre _).trans hs) hr
    -- log にあることは、書かれたことである
    have hlogged : ∀ request, e.op.input = .txn request → e.op.output = .failed →
        isUniqueTxn request (countClientPuts reports) = true →
        (e.persisted = true ↔ ((putsOf request.operations).foldl
          (patchPut (patchTables reports requests putReturnTime)) ⟨0, false, e.op.ret⟩).persisted
            = true) := by
      intro request hin hout hunique
      rw [h.logged e he hout request hin hunique, foldl_patchPut_persisted]
      simp only [Bool.false_eq_true, false_or]
      exact exists_congr fun kv => and_congr_right fun _ =>
        (countPersistedPuts_isSome requests kv).symm
    have hcase := patchOperation_patched (patchTables reports requests putReturnTime) e.op
    cases hop : patchOperation (patchTables reports requests putReturnTime) e.op with
    | none =>
      rw [List.map_cons, List.filterMap_cons_none hop]
      rw [hop] at hcase
      cases hcase with
      | dropped request hin hout hunique hnot =>
        have hlost : e.persisted = false := by
          by_contra hp
          rw [(hlogged request hin hout hunique).mp (by simpa using hp)] at hnot
          cases hnot
        have hsame : s₁ = s := by
          rw [EtcdState.follow, Happened.label, hout, hlost] at hs
          exact (Option.some.inj hs).symm
        rw [← hsame]
        exact hrest
    | some op' =>
      rw [List.map_cons, List.filterMap_cons_some hop, List.map_cons]
      rw [hop] at hcase
      refine ⟨s₁, ?_, hrest⟩
      cases hcase with
      | kept => exact ⟨e.persisted, hs⟩
      | hastened request hin hout => exact ⟨e.persisted, hs⟩
      | marked request hin hout hunique hpersisted =>
        have hp := (hlogged request hin hout hunique).mpr hpersisted
        refine ⟨true, ?_⟩
        rw [EtcdState.follow, Happened.label, hout, hp] at hs
        have hs₁ : (s.step e.op.input).1 = s₁ := by
          simpa [EtcdState.destined, Observed.agrees] using hs
        have hagree : (Observed.persisted ((putsOf request.operations).foldl
            (patchPut (patchTables reports requests putReturnTime))
            ⟨0, false, e.op.ret⟩).txnRevision : Observed O).agrees matchResponse nonLinearizable
              (s.step e.op.input).2 = true := by
          simp only [Observed.agrees, Bool.or_eq_true, decide_eq_true_eq]
          rcases foldl_patchPut_txnRevision (patchTables reports requests putReturnTime)
            (putsOf request.operations) ⟨0, false, e.op.ret⟩ with h0 | ⟨kv, hkv, hc, hw⟩
          · exact Or.inl h0
          · exact Or.inr (h.watched pre e post hsplit s hpre hout hp kv (by rw [hin]; exact hkv) hc
              _ hw)
        simp only [EtcdState.destined, hagree, if_true, hs₁]

/-- 前半の loop の後、表の時刻は、その組を書く呼び出しの終わりである。 -/
theorem recordReturnTime_notBefore {isRead : Request V → Bool}
    (h : TrueHistory matchResponse nonLinearizable
      (prepareAndCategorizeOperations isRead reports).linearizable reports requests happened
      commits) :
    NotBefore (countClientPuts reports) happened
      ((prepareAndCategorizeOperations isRead reports).linearizable.foldl
        (recordReturnTime (countClientPuts reports)) (.empty, 0)).1 := by
  obtain ⟨hmap, -⟩ := foldl_recordReturnTime (countClientPuts reports)
    (prepareAndCategorizeOperations isRead reports).linearizable (.empty, 0)
  have hrecorded : ∀ kv returnTime, ((prepareAndCategorizeOperations isRead
      reports).linearizable.foldl (recordReturnTime (countClientPuts reports)) (.empty, 0)).1 kv
        = some returnTime → ∃ e ∈ happened, kv ∈ e.op.input.puts ∧ returnTime = e.op.ret := by
    intro kv returnTime hr
    obtain ⟨op, hop, hk, hret⟩ := (hmap kv returnTime hr).resolve_left (by simp [KvMap.empty])
    obtain ⟨e, he, rfl⟩ := List.mem_map.mp (h.perm.symm.subset hop)
    exact ⟨e, he, hk, hret⟩
  refine ⟨fun kv returnTime hr hc e he hk => ?_, fun kv returnTime hr => ?_⟩
  · obtain ⟨e', he', hk', rfl⟩ := hrecorded kv returnTime hr
    -- この組を書く呼び出しは一つしかない
    have hissued : ∀ x ∈ happened, ∃ y ∈ issued reports, x.op = withReturn y := by
      intro x hx
      have hmem := h.perm.subset (List.mem_map_of_mem hx)
      rw [prepare_linearizable] at hmem
      obtain ⟨y, hy, hxy⟩ := List.mem_map.mp hmem
      exact ⟨y, List.mem_of_mem_filter hy, hxy.symm⟩
    obtain ⟨y, hy, hey⟩ := hissued e he
    obtain ⟨y', hy', hey'⟩ := hissued e' he'
    rw [hey, withReturn_input] at hk
    rw [hey', withReturn_input] at hk'
    rw [hey', ← issued_unique hc hy hy' hk hk', ← hey]
    exact (h.within e he).2.le
  · obtain ⟨e, he, hk, -⟩ := hrecorded kv returnTime hr
    exact ⟨e, he, hk⟩

/-- 補正した履歴の線形化。実際に効いた順に並べる。 -/
theorem linearizable_of_trueHistory (h : TrueHistory matchResponse nonLinearizable ops reports
      requests happened commits)
    (hn : NotBefore (countClientPuts reports) happened putReturnTime) :
    Linearizable (NonDeterministicState.step matchResponse nonLinearizable)
      NonDeterministicState.init
      (patchOperations ops (patchTables reports requests putReturnTime)) := by
  have hmap : (happened.filterMap (fun e => (patchOperation
        (patchTables reports requests putReturnTime) e.op).map (fun op' => (op', e.point)))).map
          Prod.fst
      = (happened.map Happened.op).filterMap
          (patchOperation (patchTables reports requests putReturnTime)) := by
    rw [List.map_filterMap, List.filterMap_map]
    refine List.filterMap_congr fun e _ => ?_
    rw [Function.comp_apply]
    cases patchOperation (patchTables reports requests putReturnTime) e.op <;> rfl
  refine ⟨_, linearizes_of_points (l := happened.filterMap (fun e => (patchOperation
    (patchTables reports requests putReturnTime) e.op).map (fun op' => (op', e.point))))
    Prod.fst Prod.snd ?_ ?_ ?_ ?_⟩
  · rw [hmap]
    exact h.perm.filterMap _
  · rw [List.pairwise_filterMap]
    refine h.sorted.imp fun {a b} hab x hx y hy => ?_
    obtain ⟨op₁, -, rfl⟩ := Option.map_eq_some_iff.mp hx
    obtain ⟨op₂, -, rfl⟩ := Option.map_eq_some_iff.mp hy
    exact hab
  · intro x hx
    obtain ⟨e, he, hx⟩ := List.mem_filterMap.mp hx
    obtain ⟨op', hop, rfl⟩ := Option.map_eq_some_iff.mp hx
    exact patched_within h hn he hop
  · obtain ⟨t, ht⟩ := Option.isSome_iff_exists.mp h.explained
    have hexp := patched_explains h putReturnTime [] happened rfl rfl ht
    have hrun := (isSome_runSteps_possible (fun states (a : Request V × Observed O) =>
      NonDeterministicState.mem_newStates matchResponse nonLinearizable states a.1 a.2)
      (List.cons_ne_nil (freshEtcdState : EtcdState V) [])).mpr
      ⟨freshEtcdState, List.mem_cons_self, t, hexp⟩
    rw [hmap]
    rw [runSteps_map] at hrun
    refine Eq.trans (congrArg (fun step => (runSteps step NonDeterministicState.init _).isSome) ?_)
      hrun
    funext states op
    exact NonDeterministicState.step_eq_possibleStep _ _ states op.input op.output

/-- log に読み出しがなければ、終わりの時刻が求まり、それは効いた時点より前にならない。 -/
theorem uniquePutReturnTime_notBefore {isRead : Request V → Bool}
    (h : TrueHistory matchResponse nonLinearizable
      (prepareAndCategorizeOperations isRead reports).linearizable reports requests happened
      commits) :
    ∃ putReturnTime, uniquePutReturnTime
        (prepareAndCategorizeOperations isRead reports).linearizable requests
          (countClientPuts reports) = some putReturnTime ∧
      NotBefore (countClientPuts reports) happened putReturnTime := by
  have hlog : (requests.zip commits).map Prod.fst = requests ∧
      (requests.zip commits).map Prod.snd = commits :=
    ⟨List.map_fst_zip (le_of_eq h.length.symm), List.map_snd_zip (le_of_eq h.length)⟩
  obtain ⟨-, -, hlast⟩ := foldl_recordReturnTime (countClientPuts reports)
    (prepareAndCategorizeOperations isRead reports).linearizable (.empty, 0)
  obtain ⟨acc, hwalk, hn⟩ := foldlM_walkBack_notBefore (requests.zip commits)
    (fun p hp => h.persistable p.1 (List.of_mem_zip hp).1) (by rw [hlog.2]; exact h.increasing)
    h.own (recordReturnTime_notBefore h) (fun p hp => by
      obtain ⟨op, hop, hlt⟩ := h.ended p.2 (List.of_mem_zip hp).2
      exact hlt.trans_le (hlast op hop))
  rw [hlog.1] at hwalk
  exact ⟨acc.1, by rw [uniquePutReturnTime, hwalk]; rfl, hn⟩

/-- **補正は違反を作らない。** 履歴に実際に起きたことがあり、log と watch がそれを正しく伝えるなら、補正した履歴も
線形化できる。 -/
theorem patch_never_invents (matchResponse : Response V → O → Bool) (nonLinearizable : Int)
    (isRead : Request V → Bool) (reports : List (ClientReport V O)) (requests : List (Request V))
    (happened : List (Happened V O)) (commits : List Int)
    (h : TrueHistory matchResponse nonLinearizable
      (prepareAndCategorizeOperations isRead reports).linearizable reports requests happened
      commits) :
    ∃ patched, patchLinearizableOperations
        (prepareAndCategorizeOperations isRead reports).linearizable reports requests
          = some patched ∧
      Linearizable (NonDeterministicState.step matchResponse nonLinearizable)
        NonDeterministicState.init patched := by
  obtain ⟨putReturnTime, hunique, hn⟩ := uniquePutReturnTime_notBefore h
  refine ⟨_, by rw [patchLinearizableOperations, hunique]; rfl, ?_⟩
  exact linearizable_of_trueHistory h hn

end

/-- 実際に起きた順。 -/
def lostPutHappened : List (Happened Nat (Response Nat)) :=
  [⟨answeredPut, 2, true⟩, ⟨withReturn lostPut, 7, true⟩, ⟨laterPut, 8, true⟩]

/-- 行方の分からない put が書かれていた履歴。 -/
theorem patch_never_invents_of_lostPut :
    ∃ patched, patchLinearizableOperations
        (prepareAndCategorizeOperations readsOnly lostPutReports).linearizable lostPutReports
          lostPutLog = some patched ∧
      Linearizable (NonDeterministicState.step (fun r o => decide (r = o)) 0)
        NonDeterministicState.init patched := by
  refine patch_never_invents _ 0 readsOnly lostPutReports lostPutLog lostPutHappened [2, 7, 8]
    ⟨List.Perm.refl _, by decide, by decide, by decide +kernel, by decide, rfl, by decide, by decide,
      ?_, ?_, ?_⟩
  · have hown : ∀ p ∈ lostPutLog.zip [2, 7, 8], ∀ kv ∈ p.1.puts, ∀ e ∈ lostPutHappened,
        kv ∈ e.op.input.puts → e.point = p.2 := by decide
    intro p hp request hreq kv hkv _ e he hke
    exact hown p hp kv (by rw [hreq]; exact mem_puts_of_success hkv) e he hke
  · have hlogged : ∀ e ∈ lostPutHappened, e.persisted = true ∧
        ∃ kv ∈ e.op.input.puts, ∃ r ∈ lostPutLog, kv ∈ r.puts := by decide
    intro e he _ request hin _
    obtain ⟨hp, hkv⟩ := hlogged e he
    rw [hin] at hkv
    exact ⟨fun _ => hkv, fun _ => hp⟩
  · intro pre e post hsplit s hs hout _ kv hkv _ revision hrev
    -- 失敗しているのは二番目の呼び出しである
    obtain ⟨rfl, rfl⟩ : pre = [⟨answeredPut, 2, true⟩] ∧ e = ⟨withReturn lostPut, 7, true⟩ := by
      rcases pre with _ | ⟨_, _ | ⟨_, _ | ⟨_, pre⟩⟩⟩
      · cases hsplit
        cases hout
      · cases hsplit
        exact ⟨rfl, rfl⟩
      · cases hsplit
        cases hout
      · simp [lostPutHappened] at hsplit
    obtain rfl : kv = ([1], 8) := List.mem_singleton.mp hkv
    have hrevision : putRevision lostPutReports ([1], 8) = some 3 := by decide
    have hall : (runSteps (EtcdState.follow (fun r o => decide (r = o)) 0) freshEtcdState
        ([⟨answeredPut, 2, true⟩].map Happened.label)).all (fun s =>
          decide ((s.step (withReturn lostPut).input).2.revisionOr 0 = 3)) = true := by
      decide +kernel
    rw [hs] at hall
    exact (of_decide_eq_true hall).trans (Option.some.inj (hrevision.symm.trans hrev))

end KubeFdb.Robustness
