import Mathlib.Tactic

/-!
# label 付き遷移系の run

一手を `step : σ → α → Option σ` で書く。label `α` が非決定な選択をすべて持ち、
実行できない手は `none` を返す。run は label の列であり、そのまま計算できる。

* `run_invariant` — 一手が保つ性質は run 全体で保たれる
* `run_invariant_of` — 各手が条件を満たす run に限った形。条件は手の前の状態と label で述べる
* `runSteps_turn` — 途中で成り立つようになった性質には、初めて成り立つ手がある
* `stepsMeet_congr` — 不変条件の下で同値な条件は、run の上でも同値である
* `run_iff_stepsMeet` — 一手ごとに条件の分だけ失われる性質は、どの手も条件を満たす run でだけ残る
* `runSteps_filter` — 対応を崩さない手を除いた run は、同じところに着く
* `foldlM_ok_of_forall` — error で止まる loop の不変条件
-/

variable {σ α : Type}

/-- label の列を順に実行する。 -/
def runSteps (step : σ → α → Option σ) : σ → List α → Option σ
  | s, [] => some s
  | s, a :: rest => (step s a).bind (fun s' => runSteps step s' rest)

/-- run のどの手も、その手の前の状態で条件 `ok` を満たすこと。 -/
def StepsMeet (step : σ → α → Option σ) (ok : σ → α → Prop) : σ → List α → Prop
  | _, [] => True
  | s, a :: rest => ok s a ∧ ∀ s', step s a = some s' → StepsMeet step ok s' rest

/-- 条件が計算できれば、run の上でも計算できる。 -/
instance StepsMeet.decidable {step : σ → α → Option σ} {ok : σ → α → Prop}
    [∀ s a, Decidable (ok s a)] : ∀ (s : σ) (as : List α), Decidable (StepsMeet step ok s as)
  | _, [] => .isTrue trivial
  | s, a :: rest =>
    match h : step s a with
    | none => decidable_of_iff (ok s a) (by simp [StepsMeet, h])
    | some s' =>
      have : Decidable (StepsMeet step ok s' rest) := StepsMeet.decidable s' rest
      decidable_of_iff (ok s a ∧ StepsMeet step ok s' rest) (by simp [StepsMeet, h])

section

variable {step : σ → α → Option σ} {ok : σ → α → Prop} {s s' : σ}

theorem runSteps_cons {a : α} {rest : List α} :
    runSteps step s (a :: rest) = some s' ↔
      ∃ s₁, step s a = some s₁ ∧ runSteps step s₁ rest = some s' := by
  rw [runSteps, Option.bind_eq_some_iff]

theorem runSteps_append : ∀ {s : σ} (as bs : List α),
    runSteps step s (as ++ bs) = (runSteps step s as).bind (fun s₁ => runSteps step s₁ bs)
  | _, [], _ => rfl
  | s, a :: as, bs => by
    simp only [List.cons_append, runSteps]
    cases step s a with
    | none => rfl
    | some s₁ => exact runSteps_append as bs

theorem runSteps_concat {as : List α} {s₁ : σ} (hr : runSteps step s as = some s₁) (a : α) :
    runSteps step s (as ++ [a]) = step s₁ a := by
  rw [runSteps_append, hr, Option.bind_some, runSteps]
  exact Option.bind_fun_some _

theorem stepsMeet_cons {a : α} {rest : List α} {s₁ : σ} (h : step s a = some s₁) :
    StepsMeet step ok s (a :: rest) ↔ ok s a ∧ StepsMeet step ok s₁ rest := by
  rw [StepsMeet, h]
  simp

/-- 状態によらない条件は、label の列で述べられる。 -/
theorem stepsMeet_of_forall {q : α → Prop} : ∀ {s : σ} {as : List α}, (∀ a ∈ as, q a) →
    StepsMeet step (fun _ a => q a) s as
  | _, [], _ => trivial
  | _, _ :: _, h => ⟨h _ List.mem_cons_self, fun _ _ =>
      stepsMeet_of_forall (fun b hb => h b (List.mem_cons_of_mem _ hb))⟩

theorem StepsMeet.and {ok ok' : σ → α → Prop} : ∀ {s : σ} {as : List α},
    StepsMeet step ok s as → StepsMeet step ok' s as →
    StepsMeet step (fun s a => ok s a ∧ ok' s a) s as
  | _, [], _, _ => trivial
  | _, _ :: _, h, h' => ⟨⟨h.1, h'.1⟩, fun s₁ hs => (h.2 s₁ hs).and (h'.2 s₁ hs)⟩

/-- 各手が条件を満たす run では、条件の下で一手が保つ性質は最後まで保たれる。 -/
theorem run_invariant_of (ok : σ → α → Prop) {P : σ → Prop}
    (hstep : ∀ s a s', P s → ok s a → step s a = some s' → P s') :
    ∀ {s s' : σ} {as : List α}, P s → StepsMeet step ok s as →
      runSteps step s as = some s' → P s'
  | s, s', [], h, _, hr => by
    rw [← Option.some.inj hr]
    exact h
  | s, s', a :: as, h, hok, hr => by
    obtain ⟨s₁, h1, h2⟩ := runSteps_cons.mp hr
    exact run_invariant_of ok hstep (hstep s a s₁ h hok.1 h1) (hok.2 s₁ h1) h2

/-- 一手が保つ性質は run の最後まで保たれる。 -/
theorem run_invariant {P : σ → Prop} (hstep : ∀ s a s', P s → step s a = some s' → P s')
    {as : List α} (h : P s) (hr : runSteps step s as = some s') : P s' := by
  refine run_invariant_of (fun _ _ => True) (fun s a s' hp _ hs => hstep s a s' hp hs) h ?_ hr
  clear h hr
  induction as generalizing s with
  | nil => trivial
  | cons a as ih => exact ⟨trivial, fun s₁ _ => ih⟩

/-- 始めに成り立たず終わりに成り立つ性質には、初めて成り立つ手がある。 -/
theorem runSteps_turn {Q : σ → Prop} : ∀ {s s' : σ} {as : List α},
    runSteps step s as = some s' → ¬ Q s → Q s' →
    ∃ bs a cs s₁ s₂, as = bs ++ a :: cs ∧ runSteps step s bs = some s₁ ∧ step s₁ a = some s₂ ∧
      runSteps step s₂ cs = some s' ∧ ¬ Q s₁ ∧ Q s₂
  | s, s', [], hr, hn, hq => by
    rw [← Option.some.inj hr] at hq
    exact absurd hq hn
  | s, s', a :: as, hr, hn, hq => by
    obtain ⟨s₁, h1, h2⟩ := runSteps_cons.mp hr
    by_cases h : Q s₁
    · exact ⟨[], a, as, s, s₁, rfl, rfl, h1, h2, hn, h⟩
    · obtain ⟨bs, b, cs, t₁, t₂, rfl, hb, ht, hc, hn', hq'⟩ := runSteps_turn h2 h hq
      exact ⟨a :: bs, b, cs, t₁, t₂, rfl, runSteps_cons.mpr ⟨s₁, h1, hb⟩, ht, hc, hn', hq'⟩

/-- 不変条件 `P` の下で同値な条件は、run の上でも同値である。`P` は条件を満たす手が保てばよい。 -/
theorem stepsMeet_congr {ok' : σ → α → Prop} {P : σ → Prop}
    (hstep : ∀ s a s', P s → ok s a → step s a = some s' → P s')
    (hiff : ∀ s a s', P s → step s a = some s' → (ok s a ↔ ok' s a)) :
    ∀ {s s' : σ} {as : List α}, P s → runSteps step s as = some s' →
      (StepsMeet step ok s as ↔ StepsMeet step ok' s as)
  | _, _, [], _, _ => Iff.rfl
  | s, s', a :: as, h, hr => by
    obtain ⟨s₁, h1, h2⟩ := runSteps_cons.mp hr
    rw [stepsMeet_cons h1, stepsMeet_cons h1, ← hiff s a s₁ h h1]
    exact and_congr_right fun ha => stepsMeet_congr hstep hiff (hstep s a s₁ h ha h1) h2

/-- 一手の後に `Q` が成り立つのが、前に成り立っていて手が条件 `ok` を満たすとき、そのときに限るなら、
run の後に `Q` が成り立つのは、始めに成り立っていてどの手も `ok` を満たすとき、そのときに限る。 -/
theorem run_iff_stepsMeet (assumed : σ → α → Prop) {P Q : σ → Prop}
    (hstep : ∀ s a s', P s → assumed s a → step s a = some s' → P s' ∧ (Q s' ↔ Q s ∧ ok s a)) :
    ∀ {s s' : σ} {as : List α}, P s → StepsMeet step assumed s as → runSteps step s as = some s' →
      (Q s' ↔ Q s ∧ StepsMeet step ok s as)
  | s, s', [], _, _, hr => by
    rw [← Option.some.inj hr]
    exact (and_iff_left trivial).symm
  | s, s', a :: as, h, hok, hr => by
    obtain ⟨s₁, h1, h2⟩ := runSteps_cons.mp hr
    obtain ⟨hp, hq⟩ := hstep s a s₁ h hok.1 h1
    rw [run_iff_stepsMeet assumed hstep hp (hok.2 s₁ h1) h2, stepsMeet_cons h1, hq, and_assoc]

/-- label を読み替えた run。 -/
theorem runSteps_map {β : Type} (f : β → α) : ∀ (s : σ) (bs : List β),
    runSteps step s (bs.map f) = runSteps (fun s b => step s (f b)) s bs
  | _, [] => rfl
  | s, b :: bs => by
    simp only [List.map_cons, runSteps]
    exact congrArg _ (funext fun s' => runSteps_map f s' bs)

/-- 評価で確かめた run の結果を取り出す。 -/
theorem exists_of_any_decide {P : σ → Prop} [DecidablePred P] {o : Option σ}
    (h : o.any (fun s => decide (P s)) = true) : ∃ s, o = some s ∧ P s := by
  obtain ⟨s, hs, hP⟩ := (Option.any_eq_true _ _).mp h
  exact ⟨s, hs, of_decide_eq_true hP⟩

/-- `keep` でない手が対応 `R` を崩さず、`keep` の手が両側で揃って進むなら、`keep` の手だけの run は `R` で
対応する状態に着く。 -/
theorem runSteps_filter {τ : Type} {step' : τ → α → Option τ} (keep : α → Bool) {R : σ → τ → Prop}
    (hkeep : ∀ s s' t a, R s t → keep a = true → step s a = some s' →
      ∃ t', step' t a = some t' ∧ R s' t')
    (hskip : ∀ s s' t a, R s t → keep a = false → step s a = some s' → R s' t) :
    ∀ {s s' : σ} {t : τ} {as : List α}, R s t → runSteps step s as = some s' →
      ∃ t', runSteps step' t (as.filter keep) = some t' ∧ R s' t'
  | s, s', t, [], h, hr => by
    rw [← Option.some.inj hr]
    exact ⟨t, rfl, h⟩
  | s, s', t, a :: as, h, hr => by
    obtain ⟨s₁, h1, h2⟩ := runSteps_cons.mp hr
    cases hk : keep a with
    | false =>
      rw [List.filter_cons_of_neg (by simp [hk])]
      exact runSteps_filter keep hkeep hskip (hskip s s₁ t a h hk h1) h2
    | true =>
      obtain ⟨t₁, ht, h₁⟩ := hkeep s s₁ t a h hk h1
      obtain ⟨t', htr, h'⟩ := runSteps_filter keep hkeep hskip h₁ h2
      rw [List.filter_cons_of_pos hk]
      exact ⟨t', runSteps_cons.mpr ⟨t₁, ht, htr⟩, h'⟩

end

/-- error で止まる loop は、どの要素でも `P` を保って進めるなら、`P` を保って終わる。 -/
theorem foldlM_ok_of_forall {ε : Type} {f : σ → α → Except ε σ} (P : σ → Prop) {as : List α}
    (h : ∀ s, P s → ∀ a ∈ as, ∃ s', f s a = .ok s' ∧ P s') {s : σ} (hs : P s) :
    ∃ s', as.foldlM f s = .ok s' ∧ P s' := by
  induction as generalizing s with
  | nil => exact ⟨s, rfl, hs⟩
  | cons a as ih =>
    obtain ⟨s₁, hf, h₁⟩ := h s hs a List.mem_cons_self
    rw [List.foldlM_cons, hf]
    exact ih (fun s hs x hx => h s hs x (List.mem_cons_of_mem a hx)) h₁
