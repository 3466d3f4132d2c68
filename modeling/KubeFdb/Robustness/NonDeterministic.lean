import KubeFdb.Lib.Possible
import KubeFdb.Robustness.Model

/-!
# 行方の分からない request のある参照モデル

`test/robustness/model/non_deterministic.go`。client が error を受け取った request は、書かれたのか失われたのか
分からない。モデルは取りうる状態をすべて持ち、失敗した request で枝分かれし、答えのある request で絞り込む。
porcupine はこのモデルを使って、履歴が線形化できるかどうかを調べる。

* `nonDeterministic_exact` — 持っている状態は、request ごとの行方の選び方で到達できる状態をちょうど含む
* `equal_indistinguishable` — `Equal` は並べ替えて等しいことで、`Equal` な状態はどの観測でも区別できない。
  porcupine は、`Equal` な状態の先を二度調べない

model の応答と client の応答を比べる `model.Match` と、revision を持たない応答の番号
`RevisionForNonLinearizableResponse` は etcd の robustness test のもので、どちらも引数にとる。
-/

namespace KubeFdb.Robustness

/-- client の見た `MaybeEtcdResponse`。`Error`、`Persisted`、そのどちらでもない応答の順に調べられる。 -/
inductive Observed (O : Type) where
  | failed
  | persisted (revision : Int)
  | response (o : O)
deriving DecidableEq

variable {V O : Type}

/-! ## 状態 -/

/-- `EtcdState.Equal`。 -/
def EtcdState.equal [DecidableEq V] (s other : EtcdState V) : Bool :=
  decide (s.revision = other.revision) && decide (s.compactRevision = other.compactRevision) &&
    decide (s.keyValues = other.keyValues) && decide (s.keyLeases = other.keyLeases) &&
    decide (s.leases = other.leases)

theorem EtcdState.equal_iff [DecidableEq V] {s other : EtcdState V} :
    s.equal other = true ↔ s = other := by
  cases s
  cases other
  simp [EtcdState.equal, and_assoc]

/-- `reflect.DeepEqual` で比べる状態の等しさ。 -/
instance [DecidableEq V] : DecidableEq (EtcdState V) := fun s other =>
  decidable_of_iff (s.equal other = true) EtcdState.equal_iff

/-- `MaybeEtcdResponse` の `Revision`。error と `Persisted` の応答では 0 である。 -/
def Response.revisionOr (nonLinearizable : Int) : Response V → Int
  | .range _ revision => revision
  | .txn _ revision => revision
  | .leaseGrant revision => revision
  | .leaseRevoke revision => revision
  | .defragment => nonLinearizable
  | .compact => nonLinearizable
  | .persisted _ => 0
  | .clientError _ => 0
  | .error _ => 0

/-- `nonDeterministicState`。 -/
abbrev NonDeterministicState (V : Type) := List (EtcdState V)

/-- `NonDeterministicModel.Init`。 -/
def NonDeterministicState.init : NonDeterministicState V := [freshEtcdState]

section

variable [DecidableEq V] (matchResponse : Response V → O → Bool) (nonLinearizable : Int)

namespace NonDeterministicState

/-- `applyFailedRequest`。 -/
def applyFailedRequest (states : NonDeterministicState V) (request : Request V) :
    NonDeterministicState V :=
  states.flatMap (fun s =>
    s :: if (s.step request).1 = s then [] else [(s.step request).1])

/-- `applyPersistedRequest`。 -/
def applyPersistedRequest (states : NonDeterministicState V) (request : Request V) :
    NonDeterministicState V :=
  states.map (fun s => (s.step request).1)

/-- `applyPersistedRequestWithRevision`。 -/
def applyPersistedRequestWithRevision (states : NonDeterministicState V) (request : Request V)
    (responseRevision : Int) : NonDeterministicState V :=
  states.filterMap (fun s =>
    let r := s.step request
    if r.2.revisionOr nonLinearizable = responseRevision then some r.1 else none)

/-- `applyRequestWithResponse`。 -/
def applyRequestWithResponse (states : NonDeterministicState V) (request : Request V)
    (response : O) : NonDeterministicState V :=
  states.filterMap (fun s =>
    let r := s.step request
    if matchResponse r.2 response then some r.1 else none)

/-- `apply` が作る新しい状態。 -/
def newStates (states : NonDeterministicState V) (request : Request V) :
    Observed O → NonDeterministicState V
  | .failed => states.applyFailedRequest request
  | .persisted revision =>
    if revision = 0 then states.applyPersistedRequest request
    else states.applyPersistedRequestWithRevision nonLinearizable request revision
  | .response o => states.applyRequestWithResponse matchResponse request o

/-- `apply`。 -/
def apply (states : NonDeterministicState V) (request : Request V) (response : Observed O) :
    Bool × NonDeterministicState V :=
  let new := states.newStates matchResponse nonLinearizable request response
  (decide (0 < new.length), new)

/-- `NonDeterministicModel.Step`。受け入れないときは止まる。 -/
def step (states : NonDeterministicState V) (request : Request V) (response : Observed O) :
    Option (NonDeterministicState V) :=
  let r := states.apply matchResponse nonLinearizable request response
  if r.1 then some r.2 else none

/-! ## `Equal` -/

/-- `Equal` の内側の loop。まだ対応のない等しい状態を前から探して、印を付ける。 -/
def findMatch (sItem : EtcdState V) :
    List (EtcdState V × Bool) → Option (List (EtcdState V × Bool))
  | [] => none
  | (otherItem, matched) :: rest =>
    if !matched && sItem.equal otherItem then some ((otherItem, true) :: rest)
    else (findMatch sItem rest).map (fun rest' => (otherItem, matched) :: rest')

/-- `Equal` の外側の loop。 -/
def matchAll : NonDeterministicState V → List (EtcdState V × Bool) → Bool
  | [], _ => true
  | sItem :: states, other =>
    match findMatch sItem other with
    | none => false
    | some other' => matchAll states other'

/-- `nonDeterministicState.Equal`。 -/
def equal (states other : NonDeterministicState V) : Bool :=
  decide (states.length = other.length) && matchAll states (other.map (fun s => (s, false)))

end NonDeterministicState

end

/-! ## 行方 -/

section

variable (matchResponse : Response V → O → Bool) (nonLinearizable : Int)

/-- 観測が、書かれた request の応答に合うこと。 -/
def Observed.agrees (r : Response V) : Observed O → Bool
  | .failed => true
  | .persisted revision =>
    decide (revision = 0) || decide (r.revisionOr nonLinearizable = revision)
  | .response o => matchResponse r o

/-- request の行方を決めた一手。失われたのでありうるのは、失敗した request だけである。 -/
def EtcdState.destined (s : EtcdState V) (request : Request V) (response : Observed O) :
    Bool → Option (EtcdState V)
  | true =>
    if response.agrees matchResponse nonLinearizable (s.step request).2 then
      some (s.step request).1 else none
  | false => match response with
    | .failed => some s
    | _ => none

/-- 行方を決めた観測の列についての一手。 -/
def EtcdState.follow (s : EtcdState V) (a : (Request V × Observed O) × Bool) :
    Option (EtcdState V) :=
  s.destined matchResponse nonLinearizable a.1.1 a.1.2 a.2

/-- 説明する移り方は、行方の選び方である。 -/
theorem explains_iff_destinies : ∀ (s t : EtcdState V) (history : List (Request V × Observed O)),
    Explains (fun s (a : Request V × Observed O) t => ∃ persisted,
        s.destined matchResponse nonLinearizable a.1 a.2 persisted = some t) s history t ↔
      ∃ destinies : List Bool, destinies.length = history.length ∧
        runSteps (EtcdState.follow matchResponse nonLinearizable) s (history.zip destinies) = some t
  | s, t, [] => by
    constructor
    · rintro rfl
      exact ⟨[], rfl, rfl⟩
    · rintro ⟨destinies, -, hr⟩
      exact (Option.some.inj hr).symm
  | s, t, a :: history => by
    have ih := fun u => explains_iff_destinies u t history
    constructor
    · rintro ⟨u, ⟨persisted, hd⟩, hp⟩
      obtain ⟨destinies, hlen, hr⟩ := (ih u).mp hp
      refine ⟨persisted :: destinies, by simp [hlen], ?_⟩
      rw [List.zip_cons_cons]
      exact runSteps_cons.mpr ⟨u, hd, hr⟩
    · rintro ⟨destinies, hlen, hr⟩
      cases destinies with
      | nil => cases hlen
      | cons persisted destinies =>
        rw [List.zip_cons_cons] at hr
        obtain ⟨u, hu, hr⟩ := runSteps_cons.mp hr
        refine ⟨u, ⟨persisted, hu⟩, (ih u).mpr ⟨destinies, ?_, hr⟩⟩
        simpa using hlen

variable [DecidableEq V]

/-- 観測の列についてのモデルの一手。 -/
def NonDeterministicState.observe (states : NonDeterministicState V)
    (a : Request V × Observed O) : Option (NonDeterministicState V) :=
  states.step matchResponse nonLinearizable a.1 a.2

theorem NonDeterministicState.mem_newStates (states : NonDeterministicState V)
    (request : Request V) (response : Observed O) (t : EtcdState V) :
    t ∈ states.newStates matchResponse nonLinearizable request response ↔
      ∃ s ∈ states, ∃ persisted,
        s.destined matchResponse nonLinearizable request response persisted = some t := by
  cases response with
  | failed =>
    simp only [newStates, applyFailedRequest, List.mem_flatMap]
    refine exists_congr fun s => and_congr_right fun _ => ?_
    rw [List.mem_cons, Bool.exists_bool]
    by_cases h : (s.step request).1 = s
    · simp [EtcdState.destined, Observed.agrees, h, eq_comm]
    · simp [EtcdState.destined, Observed.agrees, h, eq_comm]
  | persisted revision =>
    simp only [newStates]
    by_cases h0 : revision = 0
    · rw [if_pos h0, applyPersistedRequest, List.mem_map]
      simp [EtcdState.destined, Observed.agrees, h0]
    · rw [if_neg h0, applyPersistedRequestWithRevision, List.mem_filterMap]
      simp [EtcdState.destined, Observed.agrees, h0]
  | response o =>
    simp only [newStates, applyRequestWithResponse, List.mem_filterMap]
    refine exists_congr fun s => and_congr_right fun _ => ?_
    cases hm : matchResponse (s.step request).2 o <;>
      simp [EtcdState.destined, Observed.agrees, hm]

theorem NonDeterministicState.step_eq (states : NonDeterministicState V) (request : Request V)
    (response : Observed O) : states.step matchResponse nonLinearizable request response
      = if 0 < (states.newStates matchResponse nonLinearizable request response).length then
          some (states.newStates matchResponse nonLinearizable request response) else none := by
  unfold step apply
  simp only [decide_eq_true_eq]

theorem NonDeterministicState.step_eq_possibleStep (states : NonDeterministicState V)
    (request : Request V) (response : Observed O) :
    states.step matchResponse nonLinearizable request response
      = possibleStep (fun (states : NonDeterministicState V) (a : Request V × Observed O) =>
          states.newStates matchResponse nonLinearizable a.1 a.2) states (request, response) := by
  unfold possibleStep
  rw [step_eq]
  by_cases h : states.newStates matchResponse nonLinearizable request response = []
  · rw [if_pos h, if_neg (by simp [h])]
  · rw [if_neg h, if_pos (List.length_pos_iff.mpr h)]

/-- **モデルは、行方の選び方をちょうど追う。** どの観測の列の後でも、モデルの持つ状態は、失敗した request の
それぞれが書かれたか失われたかを選んで、決定的なモデルを動かして到達できる状態である。モデルが最後まで
受け入れるのは、観測に合う選び方があるとき、そのときに限る。 -/
theorem nonDeterministic_exact (history : List (Request V × Observed O)) :
    (∀ t, (∃ final, runSteps (NonDeterministicState.observe matchResponse nonLinearizable)
          NonDeterministicState.init history = some final ∧ t ∈ final) ↔
        ∃ destinies : List Bool, destinies.length = history.length ∧
          runSteps (EtcdState.follow matchResponse nonLinearizable) freshEtcdState
            (history.zip destinies) = some t) ∧
    ((runSteps (NonDeterministicState.observe matchResponse nonLinearizable)
        NonDeterministicState.init history).isSome = true ↔
      ∃ destinies : List Bool, destinies.length = history.length ∧
        (runSteps (EtcdState.follow matchResponse nonLinearizable) freshEtcdState
          (history.zip destinies)).isSome = true) := by
  have hstep : NonDeterministicState.observe matchResponse nonLinearizable
      = possibleStep (fun (states : NonDeterministicState V) (a : Request V × Observed O) =>
          states.newStates matchResponse nonLinearizable a.1 a.2) :=
    funext fun states => funext fun a =>
      NonDeterministicState.step_eq_possibleStep matchResponse nonLinearizable states a.1 a.2
  have hnext := fun states (a : Request V × Observed O) =>
    NonDeterministicState.mem_newStates matchResponse nonLinearizable states a.1 a.2
  have hne : (NonDeterministicState.init : NonDeterministicState V) ≠ [] := List.cons_ne_nil _ _
  rw [hstep]
  constructor
  · intro t
    rw [mem_runSteps_possible hnext]
    simp only [NonDeterministicState.init, List.mem_singleton, exists_eq_left,
      explains_iff_destinies]
  · rw [isSome_runSteps_possible hnext hne]
    simp only [NonDeterministicState.init, List.mem_singleton, exists_eq_left,
      explains_iff_destinies, Option.isSome_iff_exists]
    rw [exists_comm]
    exact exists_congr fun destinies => exists_and_left

end

/-! ## 等しい状態 -/

section

variable {states other : NonDeterministicState V}

namespace NonDeterministicState

/-- まだ対応のない状態。 -/
def unmatched (other : List (EtcdState V × Bool)) : NonDeterministicState V :=
  (other.filter (fun x => !x.2)).map Prod.fst

theorem unmatched_map_false : unmatched (other.map (fun s => (s, false))) = other := by
  unfold unmatched
  rw [List.filter_eq_self.mpr (by simp), List.map_map]
  exact List.map_id _

variable [DecidableEq V]

/-- 内側の loop は、対応のない等しい状態があれば、その一つに印を付ける。 -/
theorem findMatch_spec (sItem : EtcdState V) : ∀ other : List (EtcdState V × Bool),
    (∃ other', findMatch sItem other = some other' ∧
      (unmatched other).Perm (sItem :: unmatched other')) ∨
    (findMatch sItem other = none ∧ sItem ∉ unmatched other)
  | [] => Or.inr ⟨rfl, List.not_mem_nil⟩
  | (otherItem, matched) :: rest => by
    rw [findMatch]
    by_cases h : (!matched && sItem.equal otherItem) = true
    · rw [if_pos h]
      obtain ⟨hm, he⟩ := Bool.and_eq_true_iff.mp h
      obtain rfl := EtcdState.equal_iff.mp he
      obtain rfl : matched = false := by simpa using hm
      exact Or.inl ⟨_, rfl, List.Perm.refl _⟩
    · rw [if_neg h]
      rcases findMatch_spec sItem rest with ⟨rest', hr, hp⟩ | ⟨hr, hn⟩
      · refine Or.inl ⟨(otherItem, matched) :: rest', by rw [hr]; rfl, ?_⟩
        cases matched with
        | true => exact hp
        | false => exact (hp.cons otherItem).trans (List.Perm.swap _ _ _)
      · refine Or.inr ⟨by rw [hr]; rfl, fun hmem => ?_⟩
        cases matched with
        | true => exact hn hmem
        | false =>
          rcases List.mem_cons.mp hmem with rfl | hmem
          · exact h (by simp [EtcdState.equal_iff])
          · exact hn hmem

/-- 外側の loop は、どの状態にも対応を付けられるかどうかを調べる。 -/
theorem matchAll_iff : ∀ {states : NonDeterministicState V} {other : List (EtcdState V × Bool)},
    matchAll states other = true ↔ ∃ rest, (unmatched other).Perm (states ++ rest)
  | [], other => by
    simp only [matchAll, List.nil_append, true_iff]
    exact ⟨_, List.Perm.refl _⟩
  | sItem :: states, other => by
    rw [matchAll]
    rcases findMatch_spec sItem other with ⟨other', hf, hp⟩ | ⟨hf, hn⟩
    · rw [hf]
      show matchAll states other' = true ↔ _
      rw [matchAll_iff]
      refine exists_congr fun rest => ?_
      rw [List.cons_append]
      exact ⟨fun h => hp.trans (h.cons _), fun h => (hp.symm.trans h).cons_inv⟩
    · rw [hf]
      refine iff_of_false Bool.false_ne_true ?_
      rintro ⟨rest, hrest⟩
      exact hn (hrest.symm.subset List.mem_cons_self)

theorem equal_iff_perm : states.equal other = true ↔ states.Perm other := by
  unfold equal
  rw [Bool.and_eq_true, decide_eq_true_eq, matchAll_iff, unmatched_map_false]
  constructor
  · rintro ⟨hlen, rest, hp⟩
    have hrest : rest = [] := by
      refine List.length_eq_zero_iff.mp ?_
      have := hp.length_eq
      rw [List.length_append] at this
      omega
    rw [hrest, List.append_nil] at hp
    exact hp.symm
  · intro hp
    exact ⟨hp.length_eq, [], by rw [List.append_nil]; exact hp.symm⟩

/-- 並べ替えただけの状態からは、並べ替えただけの状態に移る。 -/
theorem newStates_perm (matchResponse : Response V → O → Bool) (nonLinearizable : Int)
    (hp : states.Perm other) (request : Request V) (response : Observed O) :
    (states.newStates matchResponse nonLinearizable request response).Perm
      (other.newStates matchResponse nonLinearizable request response) := by
  cases response with
  | failed => exact hp.flatMap_right _
  | persisted revision =>
    simp only [newStates]
    split
    · exact hp.map _
    · exact hp.filterMap _
  | response o => exact hp.filterMap _

end NonDeterministicState

variable [DecidableEq V]

/-- **`Equal` な状態は区別できない。** `Equal` は並べ替えて等しいことであり、`Equal` な二つの状態は、どの観測の列
についても、揃って受け入れるか揃って断り、受け入れた後も `Equal` である。 -/
theorem equal_indistinguishable (matchResponse : Response V → O → Bool) (nonLinearizable : Int)
    (states other : NonDeterministicState V) :
    (states.equal other = true ↔ states.Perm other) ∧
    (states.equal other = true → ∀ history : List (Request V × Observed O),
      (∃ final final', runSteps (NonDeterministicState.observe matchResponse nonLinearizable)
            states history = some final ∧
          runSteps (NonDeterministicState.observe matchResponse nonLinearizable) other history
            = some final' ∧ final.equal final' = true) ∨
        (runSteps (NonDeterministicState.observe matchResponse nonLinearizable) states history
            = none ∧
          runSteps (NonDeterministicState.observe matchResponse nonLinearizable) other history
            = none)) := by
  refine ⟨NonDeterministicState.equal_iff_perm, fun heq history => ?_⟩
  rw [NonDeterministicState.equal_iff_perm] at heq
  simp only [NonDeterministicState.equal_iff_perm]
  induction history generalizing states other with
  | nil => exact Or.inl ⟨states, other, rfl, rfl, heq⟩
  | cons a history ih =>
    have hp := NonDeterministicState.newStates_perm matchResponse nonLinearizable heq a.1 a.2
    simp only [runSteps, NonDeterministicState.observe, NonDeterministicState.step_eq, ← hp.length_eq]
    by_cases hpos : 0 < (states.newStates matchResponse nonLinearizable a.1 a.2).length
    · rw [if_pos hpos, if_pos hpos]
      exact ih _ _ hp
    · rw [if_neg hpos, if_neg hpos]
      exact Or.inr ⟨rfl, rfl⟩

end

end KubeFdb.Robustness
