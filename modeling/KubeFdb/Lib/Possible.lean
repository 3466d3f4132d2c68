import KubeFdb.Lib.Run

/-!
# 取りうる状態の列

観測からは次の状態が一つに決まらない系を、取りうる状態をすべて持ち歩いて追う。`R s a t` は、状態 `s` で観測
`a` があったとき、次の状態が `t` でありうることをいう。`next` は列の上の一手で、列が空になれば観測は
説明できない。

* `Explains` — 観測の列を説明する状態の移り方
* `mem_runSteps_possible` — 持ち歩いた列は、説明できる状態をちょうど含む
* `isSome_runSteps_possible` — 最後まで追えるのは、説明があるとき、そのときに限る
-/

variable {σ α : Type}

/-- 観測の列を説明する、`s` から `t` への移り方。 -/
def Explains (R : σ → α → σ → Prop) : σ → List α → σ → Prop
  | s, [], t => t = s
  | s, a :: as, t => ∃ u, R s a u ∧ Explains R u as t

/-- 列の上の一手。空になれば止まる。 -/
def possibleStep (next : List σ → α → List σ) (states : List σ) (a : α) : Option (List σ) :=
  if next states a = [] then none else some (next states a)

section

variable {R : σ → α → σ → Prop} {next : List σ → α → List σ} {s t : σ} {as : List α}

theorem possibleStep_eq_some {states states' : List σ} {a : α} :
    possibleStep next states a = some states' ↔ states' = next states a ∧ states' ≠ [] := by
  unfold possibleStep
  split
  · next h => simp [h]
  · next h =>
    rw [Option.some.injEq]
    constructor
    · rintro rfl
      exact ⟨rfl, h⟩
    · exact fun hs => hs.1.symm

/-- 一手が関係 `R` の像をとるなら、持ち歩いた列は、説明できる状態をちょうど含む。 -/
theorem mem_runSteps_possible (hnext : ∀ states a t, t ∈ next states a ↔ ∃ s ∈ states, R s a t) :
    ∀ {states : List σ} {as : List α} {t : σ},
      (∃ final, runSteps (possibleStep next) states as = some final ∧ t ∈ final) ↔
        ∃ s ∈ states, Explains R s as t
  | states, [], t => by simp [runSteps, Explains]
  | states, a :: as, t => by
    have ih := @mem_runSteps_possible hnext (next states a) as t
    constructor
    · rintro ⟨final, hr, ht⟩
      obtain ⟨states', hs, hr⟩ := runSteps_cons.mp hr
      obtain ⟨rfl, -⟩ := possibleStep_eq_some.mp hs
      obtain ⟨u, hu, hp⟩ := ih.mp ⟨final, hr, ht⟩
      obtain ⟨s, hs, hR⟩ := (hnext _ _ _).mp hu
      exact ⟨s, hs, u, hR, hp⟩
    · rintro ⟨s, hs, u, hR, hp⟩
      have hu : u ∈ next states a := (hnext _ _ _).mpr ⟨s, hs, hR⟩
      obtain ⟨final, hr, ht⟩ := ih.mpr ⟨u, hu, hp⟩
      refine ⟨final, runSteps_cons.mpr ⟨_, possibleStep_eq_some.mpr ⟨rfl, ?_⟩, hr⟩, ht⟩
      exact List.ne_nil_of_mem hu

theorem runSteps_possible_ne_nil : ∀ {states final : List σ} {as : List α}, states ≠ [] →
    runSteps (possibleStep next) states as = some final → final ≠ []
  | states, final, [], hne, hr => by
    rw [← Option.some.inj hr]
    exact hne
  | states, final, a :: as, _, hr => by
    obtain ⟨states', hs, hr⟩ := runSteps_cons.mp hr
    exact runSteps_possible_ne_nil (possibleStep_eq_some.mp hs).2 hr

/-- 空でない列から最後まで追えるのは、観測の列に説明があるとき、そのときに限る。 -/
theorem isSome_runSteps_possible
    (hnext : ∀ states a t, t ∈ next states a ↔ ∃ s ∈ states, R s a t) {states : List σ}
    (hne : states ≠ []) :
    (runSteps (possibleStep next) states as).isSome = true ↔ ∃ s ∈ states, ∃ t, Explains R s as t := by
  rw [Option.isSome_iff_exists]
  constructor
  · rintro ⟨final, hr⟩
    obtain ⟨t, ht⟩ := List.exists_mem_of_ne_nil _ (runSteps_possible_ne_nil hne hr)
    obtain ⟨s, hs, hp⟩ := (mem_runSteps_possible hnext).mp ⟨final, hr, ht⟩
    exact ⟨s, hs, t, hp⟩
  · rintro ⟨s, hs, t, hp⟩
    obtain ⟨final, hr, -⟩ := (mem_runSteps_possible hnext).mpr ⟨s, hs, hp⟩
    exact ⟨final, hr⟩

end
