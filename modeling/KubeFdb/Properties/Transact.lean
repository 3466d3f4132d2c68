import KubeFdb.Driver.Transact

/-!
# やり直しと error

`transact` が nil の error を返すのは、最後の試みの closure が値を返し、`Commit` が成功したときに限るはずである。

`fdb.Error` の panic はこれを破る。`panicToError` の書く `e` は `wrapped` の外の変数で、`wrapped` の無名の結果は
零値と nil のまま返る。`retryable` はそれを成功と読み、`Commit` も `OnError` も呼ばれない
（`panicked_attempt_reported_as_success`）。

行った試みの closure が `fdb.Error` で panic しないとき、そのときに限って、`transact` は正しく報告する
（`transact_sound_iff`）。
-/

namespace KubeFdb

variable {T : Type} (params : TransactParams T)

namespace Attempt

/-- closure の前の、option の設定の error。 -/
def optionError (a : Attempt T) : Option GoError :=
  match a.setTimeout with
  | some err => some (.wrap "failed to set timeout limit" err)
  | none =>
  match a.setRetryLimit with
  | some err => some (.wrap "failed to set timeout limit" err)
  | none =>
    (if params.logConflictingKeys then a.setReportConflictingKeys else none).map
      (.wrap "failed to set conflicint keys option")

/-- 試みの `fdb.Error`。closure が返すもの、panic の値、`Commit` のものがある。 -/
def fdbError (a : Attempt T) : Option Nat :=
  match a.optionError params with
  | some err => err.asFdb
  | none =>
  match a.closure with
  | .panicFdb code => some code
  | .panicOther _ => none
  | .returned _ none => (a.report params (a.commit.map GoError.fdb)).bind GoError.asFdb
  | .returned _ (some err) => (a.report params (some err)).bind GoError.asFdb

/-- closure が `fdb.Error` で panic すること。 -/
def Panics (a : Attempt T) : Prop :=
  a.optionError params = none ∧ ∃ code, a.closure = .panicFdb code

/-- `fdb.Error` で終わり、`OnError` がやり直しを許すこと。 -/
def Retried (a : Attempt T) : Prop := (a.fdbError params).isSome = true ∧ a.onError = none

end Attempt

/-- `transact` が正しく報告すること。 -/
structure TransactSound (run : TransactRun T) : Prop where
  /-- nil の error を返すのは、最後の試みの closure が値を返し、`Commit` が成功したときに限る。 -/
  success : ∀ v, run.outcome = .returned v none → ∃ a, run.made.getLast? = some (a, none) ∧
    a.optionError params = none ∧ a.closure = .returned v none ∧ a.commit = none
  /-- closure のほかの error は、やり直さずにそのまま返る。 -/
  plain : ∀ pre a call post v e, run.made = pre ++ (a, call) :: post → a.optionError params = none →
    a.closure = .returned v (some e) → e.asFdb = none →
    call = none ∧ post = [] ∧ run.outcome = .returned v (some e)
  /-- `fdb.Error` は `OnError` に渡り、やり直すか、`OnError` の error が返る。 -/
  fdb : ∀ pre a call post code, run.made = pre ++ (a, call) :: post → a.fdbError params = some code →
    call = some code ∧ (a.onError = none → post ≠ [] ∨ run.outcome = .retrying) ∧
      ∀ refused, a.onError = some refused → post = [] ∧ ∃ v, run.outcome = .returned v (some refused)

/-- 行う試み、つまり前の試みがすべてやり直される試みが panic しないこと。 -/
def NoPanicReached (attempts : List (Attempt T)) : Prop :=
  ∀ pre a post, attempts = pre ++ a :: post → (∀ b ∈ pre, b.Retried params) → ¬ a.Panics params

theorem noPanicReached_cons {a : Attempt T} {rest : List (Attempt T)} :
    NoPanicReached params (a :: rest) ↔
      ¬ a.Panics params ∧ (a.Retried params → NoPanicReached params rest) := by
  constructor
  · refine fun h => ⟨h [] a rest rfl fun b hb => absurd hb List.not_mem_nil, fun hr pre b post he hpre => ?_⟩
    refine h (a :: pre) b post (by rw [he, List.cons_append]) fun c hc => ?_
    rcases List.mem_cons.mp hc with rfl | hc
    · exact hr
    · exact hpre c hc
  · rintro ⟨ha, hrest⟩ pre b post he hpre
    cases pre with
    | nil =>
      rw [← (List.cons.inj he).1]
      exact ha
    | cons c pre =>
      obtain ⟨rfl, hrest'⟩ := List.cons.inj he
      exact hrest (hpre a List.mem_cons_self) pre b post hrest' fun d hd => hpre d (List.mem_cons_of_mem _ hd)

/-! ## 一回の試み -/

section

variable {params} {a : Attempt T} {e err : Option GoError}

theorem report_ne_none {er : GoError} : a.report params (some er) ≠ none := by
  unfold Attempt.report
  split
  · cases a.conflictingKeys <;> simp
  · simp

/-- `fdb.Error` でない error は、そのまま残る。 -/
theorem report_of_plain {er : GoError} (h : er.asFdb = none) : a.report params (some er) = some er := by
  unfold Attempt.report
  rw [if_neg (by simp [h])]

theorem wrapped_of_optionError {er : GoError} (h : a.optionError params = some er) :
    (a.wrapped params e).1 = .returned params.defaultValue (some er) := by
  unfold Attempt.optionError at h
  unfold Attempt.wrapped
  cases h1 : a.setTimeout with
  | some x =>
    simp only [h1, Option.some.injEq] at h
    simp only [h]
  | none =>
    cases h2 : a.setRetryLimit with
    | some x =>
      simp only [h1, h2, Option.some.injEq] at h
      simp only [h]
    | none =>
      simp only [h1, h2, Option.map_eq_some_iff] at h
      obtain ⟨x, hx, rfl⟩ := h
      simp only [hx]

theorem wrapped_of_ready (h : a.optionError params = none) :
    (a.wrapped params e).1 = match a.closure with
      | .panicFdb _ => .returned params.zero none
      | .panicOther msg => .panicked msg
      | .returned ret none => .returned ret (a.report params (a.commit.map GoError.fdb))
      | .returned ret (some er) => .returned ret (a.report params (some er)) := by
  unfold Attempt.optionError at h
  unfold Attempt.wrapped
  cases h1 : a.setTimeout with
  | some x => simp [h1] at h
  | none =>
    cases h2 : a.setRetryLimit with
    | some x => simp [h1, h2] at h
    | none =>
      simp only [h1, h2, Option.map_eq_none_iff] at h
      simp only [h]
      split <;> simp_all

/-- panic しない試みの `wrapped` は、試みの error をそのまま返す。 -/
theorem wrapped_spec (hp : ¬ a.Panics params) :
    (∃ msg, (a.wrapped params e).1 = .panicked msg ∧ a.fdbError params = none ∧
      a.closure = .panicOther msg) ∨
    ∃ ret err, (a.wrapped params e).1 = .returned ret err ∧
      a.fdbError params = err.bind GoError.asFdb ∧
      (err = none → a.optionError params = none ∧ a.closure = .returned ret none ∧ a.commit = none) ∧
      ∀ v er, a.optionError params = none → a.closure = .returned v (some er) → er.asFdb = none →
        ret = v ∧ err = some er := by
  cases ho : a.optionError params with
  | some er =>
    refine Or.inr ⟨_, _, wrapped_of_optionError ho, ?_, fun h => (by cases h), fun v er' h => (by cases h)⟩
    unfold Attempt.fdbError
    rw [ho]
    rfl
  | none =>
    have hw := wrapped_of_ready (e := e) ho
    have hf : a.fdbError params = match a.closure with
        | .panicFdb code => some code
        | .panicOther _ => none
        | .returned _ none => (a.report params (a.commit.map GoError.fdb)).bind GoError.asFdb
        | .returned _ (some err) => (a.report params (some err)).bind GoError.asFdb := by
      unfold Attempt.fdbError
      rw [ho]
    cases hc : a.closure with
    | panicFdb code => exact absurd ⟨ho, code, hc⟩ hp
    | panicOther msg =>
      rw [hc] at hw hf
      exact Or.inl ⟨msg, hw, hf, rfl⟩
    | returned ret oe =>
      cases oe with
      | none =>
        rw [hc] at hw hf
        refine Or.inr ⟨ret, _, hw, hf, fun h => ⟨rfl, rfl, ?_⟩, fun v er _ h => (by cases h)⟩
        cases hcommit : a.commit with
        | none => rfl
        | some code =>
          rw [hcommit] at h
          exact absurd h report_ne_none
      | some er =>
        rw [hc] at hw hf
        refine Or.inr ⟨ret, _, hw, hf, fun h => absurd h report_ne_none, fun v er' _ h hplain => ?_⟩
        cases h
        exact ⟨rfl, report_of_plain hplain⟩

end

/-! ## 最後の試み -/

/-- 最後の試みについて `TransactSound` が求めること。 -/
structure Attempt.Ends (a : Attempt T) (call : Option Nat) (outcome : TransactOutcome T) : Prop where
  success : ∀ v, outcome = .returned v none → call = none ∧ a.optionError params = none ∧
    a.closure = .returned v none ∧ a.commit = none
  plain : ∀ v e, a.optionError params = none → a.closure = .returned v (some e) → e.asFdb = none →
    call = none ∧ outcome = .returned v (some e)
  fdb : ∀ code, a.fdbError params = some code → call = some code ∧
    ∃ refused v, a.onError = some refused ∧ outcome = .returned v (some refused)

variable {params} {a : Attempt T} {rest : List (Attempt T)} {call : Option Nat}
  {outcome : TransactOutcome T} {run : TransactRun T} {code : Nat}

theorem sound_of_ends (h : a.Ends params call outcome) :
    TransactSound params ⟨outcome, [(a, call)]⟩ := by
  have hone : ∀ {pre post : List (Attempt T × Option Nat)} {b : Attempt T} {c : Option Nat},
      [(a, call)] = pre ++ (b, c) :: post → b = a ∧ c = call ∧ post = [] := by
    intro pre post b c he
    cases pre with
    | nil =>
      obtain ⟨hb, hpost⟩ := List.cons.inj he
      cases hb
      exact ⟨rfl, rfl, hpost.symm⟩
    | cons d pre => exact absurd (List.cons.inj he).2 (by simp)
  refine ⟨fun v hv => ?_, fun pre b c post v e he ho hc hp => ?_, fun pre b c post code he hf => ?_⟩
  · obtain ⟨rfl, ho, hc, hcommit⟩ := h.success v hv
    exact ⟨a, rfl, ho, hc, hcommit⟩
  · obtain ⟨rfl, rfl, rfl⟩ := hone he
    obtain ⟨hcall, hout⟩ := h.plain v e ho hc hp
    exact ⟨hcall, rfl, hout⟩
  · obtain ⟨rfl, rfl, rfl⟩ := hone he
    obtain ⟨hcall, refused, v, hr, hout⟩ := h.fdb code hf
    refine ⟨hcall, fun hn => absurd (hr.symm.trans hn) (Option.some_ne_none _), fun refused' hr' => ?_⟩
    rw [hr] at hr'
    cases hr'
    exact ⟨rfl, v, hout⟩

/-- やり直した試みは、残りの報告を変えない。 -/
theorem sound_cons_iff (hf : a.fdbError params = some code) (hon : a.onError = none)
    (hne : run.made ≠ [] ∨ run.outcome = .retrying) :
    TransactSound params { run with made := (a, some code) :: run.made } ↔ TransactSound params run := by
  constructor
  · refine fun h => ⟨fun v hv => ?_, fun pre b c post v e he => ?_, fun pre b c post code' he => ?_⟩
    · obtain ⟨b, hb, hrest⟩ := h.success v hv
      rw [List.getLast?_cons] at hb
      cases hl : run.made.getLast? with
      | none => rw [hl] at hb; cases hb
      | some p => rw [hl] at hb; exact ⟨b, hb, hrest⟩
    · exact h.plain ((a, some code) :: pre) b c post v e (by rw [List.cons_append, ← he])
    · exact h.fdb ((a, some code) :: pre) b c post code' (by rw [List.cons_append, ← he])
  · refine fun h => ⟨fun v hv => ?_, fun pre b c post v e he ho hc hp => ?_, fun pre b c post code' he hf' => ?_⟩
    · obtain ⟨b, hb, hrest⟩ := h.success v hv
      exact ⟨b, by rw [List.getLast?_cons, hb]; rfl, hrest⟩
    · cases pre with
      | nil =>
        obtain ⟨hb, -⟩ := List.cons.inj he
        cases hb
        -- 返った error は `fdb.Error` でないので、やり直されない
        unfold Attempt.fdbError at hf
        rw [ho, hc] at hf
        simp only [report_of_plain hp, Option.bind_some, hp] at hf
        cases hf
      | cons d pre =>
        exact h.plain pre b c post v e (List.cons.inj he).2 ho hc hp
    · cases pre with
      | nil =>
        obtain ⟨hb, rfl⟩ := List.cons.inj he
        cases hb
        refine ⟨hf.symm.trans hf', fun _ => hne, fun refused hr => ?_⟩
        rw [hon] at hr
        cases hr
      | cons d pre =>
        exact h.fdb pre b c post code' (List.cons.inj he).2 hf'

/-! ## retryable -/

theorem retryable_cons_of_panics (h : a.Panics params) (i : Nat) (e : Option GoError) :
    retryable params i e (a :: rest) = ⟨.returned params.zero none, [(a, none)]⟩ := by
  obtain ⟨ho, code, hc⟩ := h
  have hw := wrapped_of_ready (e := e) ho
  rw [hc] at hw
  unfold retryable
  cases hres : a.wrapped params e with
  | mk res e' =>
    rw [hres] at hw
    cases hw
    rfl

/-- panic しない試みの後は、やり直して残りに移るか、そこで終わる。 -/
theorem retryable_cons_of_not_panics (h : ¬ a.Panics params) (i : Nat) (e : Option GoError) :
    (a.Retried params ∧ ∃ code e', a.fdbError params = some code ∧
      retryable params i e (a :: rest) = { retryable params (i + 1) e' rest with
        made := (a, some code) :: (retryable params (i + 1) e' rest).made }) ∨
    (¬ a.Retried params ∧ ∃ call outcome, retryable params i e (a :: rest) = ⟨outcome, [(a, call)]⟩ ∧
      a.Ends params call outcome) := by
  have hspec := wrapped_spec (e := e) h
  rw [retryable]
  generalize a.wrapped params e = w at hspec
  obtain ⟨res, e'⟩ := w
  rcases hspec with ⟨msg, rfl, hf, hc⟩ | ⟨ret, err, rfl, hf, hnone, hplain⟩
  · refine Or.inr ⟨fun hr => absurd hr.1 (by simp [hf]), none, .panicked msg, rfl, ?_⟩
    refine ⟨fun v hv => (by cases hv), fun v er _ hc' => ?_, fun code hf' => ?_⟩
    · rw [hc] at hc'
      cases hc'
    · rw [hf] at hf'
      cases hf'
  · cases err with
    | none =>
      refine Or.inr ⟨fun hr => absurd hr.1 (by simp [hf]), none, .returned ret none, rfl, ?_⟩
      refine ⟨fun v hv => ?_, fun v er ho hc hp => ?_, fun code hf' => ?_⟩
      · cases hv
        exact ⟨rfl, hnone rfl⟩
      · cases (hplain v er ho hc hp).2
      · rw [hf] at hf'
        cases hf'
    | some err =>
      rw [Option.bind_some] at hf
      cases hcode : err.asFdb with
      | none =>
        rw [hcode] at hf
        refine Or.inr ⟨fun hr => absurd hr.1 (by simp [hf]), none, .returned ret (some err), ?_, ?_⟩
        · simp [forceRetryTransaction, hcode]
        · refine ⟨fun v hv => (by cases hv), fun v er ho hc hp => ?_, fun code hf' => ?_⟩
          · obtain ⟨rfl, he⟩ := hplain v er ho hc hp
            exact ⟨rfl, by rw [he]⟩
          · rw [hf] at hf'
            cases hf'
      | some code =>
        rw [hcode] at hf
        cases hon : a.onError with
        | none =>
          refine Or.inl ⟨⟨by simp [hf], hon⟩, code, e', hf, ?_⟩
          simp [forceRetryTransaction, hcode]
        | some refused =>
          refine Or.inr ⟨fun hr => absurd hr.2 (by simp [hon]), some code,
            .returned ret (some refused), ?_, ?_⟩
          · simp [forceRetryTransaction, hcode]
          · refine ⟨fun v hv => (by cases hv), fun v er ho hc hp => ?_, fun code' hf' => ?_⟩
            · have he := (hplain v er ho hc hp).2
              cases he
              rw [hp] at hcode
              cases hcode
            · rw [hf] at hf'
              cases hf'
              exact ⟨rfl, refused, ret, hon, rfl⟩

theorem made_ne_nil_or_retrying (i : Nat) (e : Option GoError) (attempts : List (Attempt T)) :
    (retryable params i e attempts).made ≠ [] ∨ (retryable params i e attempts).outcome = .retrying := by
  cases attempts with
  | nil => exact Or.inr rfl
  | cons a rest =>
    left
    by_cases hp : a.Panics params
    · rw [retryable_cons_of_panics hp]
      exact List.cons_ne_nil _ _
    · rcases retryable_cons_of_not_panics hp i e with ⟨-, code, e', -, he⟩ | ⟨-, call, outcome, he, -⟩
      · rw [he]
        exact List.cons_ne_nil _ _
      · rw [he]
        exact List.cons_ne_nil _ _

/-- panic した試みで終わると、零値が成功として返る。 -/
theorem not_sound_of_panics (h : a.Panics params) {v : T} :
    ¬ TransactSound params ⟨.returned v none, [(a, none)]⟩ := by
  intro hs
  obtain ⟨-, code, hc⟩ := h
  obtain ⟨b, hb, -, hb', -⟩ := hs.success v rfl
  cases hb
  rw [hc] at hb'
  cases hb'

/-- 帰納法は試みの列による。 -/
theorem retryable_sound_iff : ∀ (attempts : List (Attempt T)) (i : Nat) (e : Option GoError),
    TransactSound params (retryable params i e attempts) ↔ NoPanicReached params attempts
  | [], i, e => by
    refine ⟨fun _ pre a post h => absurd h (by simp), fun _ => ⟨fun v hv => (by cases hv), ?_, ?_⟩⟩
    · intro pre a call post v e' he
      exact absurd he (by simp [retryable])
    · intro pre a call post code he
      exact absurd he (by simp [retryable])
  | a :: rest, i, e => by
    rw [noPanicReached_cons]
    by_cases hp : a.Panics params
    · rw [retryable_cons_of_panics hp]
      exact ⟨fun h => absurd h (not_sound_of_panics hp), fun h => absurd hp h.1⟩
    · rcases retryable_cons_of_not_panics hp i e with ⟨hr, code, e', hf, he⟩ | ⟨hr, call, outcome, he, hends⟩
      · rw [he, sound_cons_iff hf hr.2 (made_ne_nil_or_retrying (i + 1) e' rest),
          retryable_sound_iff rest (i + 1) e']
        exact ⟨fun h => ⟨hp, fun _ => h⟩, fun h => h.2 hr⟩
      · rw [he]
        exact ⟨fun _ => ⟨hp, fun h => absurd h hr⟩, fun _ => sound_of_ends hends⟩

/-- `transact` が正しく報告するのは、行った試みの closure が `fdb.Error` で panic しないときである。 -/
theorem transact_sound_iff (params : TransactParams T) (create : Option GoError)
    (attempts : List (Attempt T)) :
    TransactSound params (transact params create attempts) ↔
      (create = none → NoPanicReached params attempts) := by
  cases create with
  | none =>
    have hiff : TransactSound params (retryable params 0 none attempts) ↔ NoPanicReached params attempts :=
      retryable_sound_iff attempts 0 none
    exact ⟨fun h _ => hiff.mp h, fun h => hiff.mpr (h rfl)⟩
  | some e =>
    refine ⟨fun _ h => (by cases h), fun _ => ⟨fun v hv => (by cases hv), ?_, ?_⟩⟩
    · intro pre a call post v e' he
      exact absurd he (by simp [transact])
    · intro pre a call post code he
      exact absurd he (by simp [transact])

/-- option の設定に失敗しない試み。 -/
def plainAttempt (closure : ClosureOutcome Nat) (commit : Option Nat) : Attempt Nat :=
  ⟨none, none, none, closure, commit, none, none⟩

/-- 衝突してやり直し、二度目に成功する。 -/
theorem transact_sound_of_conflict :
    (transact ⟨0, 0, false⟩ none [plainAttempt (.returned 7 none) (some notCommittedErrorCode),
      plainAttempt (.returned 8 none) none]).outcome = .returned 8 none ∧
    TransactSound ⟨0, 0, false⟩ (transact ⟨0, 0, false⟩ none
      [plainAttempt (.returned 7 none) (some notCommittedErrorCode),
        plainAttempt (.returned 8 none) none]) := by
  refine ⟨by decide, (transact_sound_iff _ _ _).mpr ?_⟩
  rintro - pre a post he - ⟨-, code, hc⟩
  have hmem : a ∈ [plainAttempt (.returned 7 none) (some notCommittedErrorCode),
      plainAttempt (.returned 8 none) none] := by rw [he]; simp
  simp only [List.mem_cons, List.not_mem_nil, or_false] at hmem
  rcases hmem with rfl | rfl <;> cases hc

/-- `fdb.Error` で panic した試みは、commit も `OnError` もないまま、零値の成功として返る。 -/
theorem panicked_attempt_reported_as_success :
    transact ⟨0, 0, false⟩ none [plainAttempt (.panicFdb 1007) none]
      = ⟨.returned 0 none, [(plainAttempt (.panicFdb 1007) none, none)]⟩ ∧
    ¬ TransactSound ⟨0, 0, false⟩ (transact ⟨0, 0, false⟩ none [plainAttempt (.panicFdb 1007) none]) := by
  have hrun : transact ⟨0, 0, false⟩ none [plainAttempt (.panicFdb 1007) none]
      = ⟨.returned 0 none, [(plainAttempt (.panicFdb 1007) none, none)]⟩ := by decide
  refine ⟨hrun, ?_⟩
  rw [hrun]
  exact not_sound_of_panics ⟨rfl, 1007, rfl⟩

end KubeFdb
