import KubeFdb.Lib.OrdMap

/-!
# 更新の列

写像の更新を、鍵と新しい値の組で表す。値のない更新は鍵を除く。番号の付いた更新の列は、どの番号までの写像も決める。

* `filter_updateAll` — 鍵の条件で絞った写像は、絞った更新だけで決まる
* `get?_updateAll_map` — 更新を重ねた写像は、鍵の最新の更新の値を持つ
* `updateAll_resume` — 番号 `a` までの写像に、その先の更新を重ねると、番号 `b` までの写像になる
-/

namespace OrdMap

variable {κ ν : Type} [LinearOrder κ] {m : OrdMap κ ν}

/-- 更新一つ。 -/
def update (m : OrdMap κ ν) (u : κ × Option ν) : OrdMap κ ν :=
  match u.2 with
  | some v => m.set u.1 v
  | none => m.filter (fun k => decide (k ≠ u.1))

/-- 更新を順に重ねる。 -/
def updateAll (m : OrdMap κ ν) (us : List (κ × Option ν)) : OrdMap κ ν := us.foldl update m

theorem get?_update (u : κ × Option ν) (k : κ) :
    (m.update u).get? k = if k = u.1 then u.2 else m.get? k := by
  obtain ⟨key, value⟩ := u
  cases value with
  | some v =>
    show (m.set key v).get? k = if k = key then some v else m.get? k
    by_cases hk : k = key
    · rw [hk, get?_set_self, if_pos rfl]
    · rw [get?_set_of_ne hk, if_neg hk]
  | none =>
    show (m.filter _).get? k = if k = key then none else m.get? k
    rw [get?_filter]
    by_cases hk : k = key <;> simp [hk]

theorem updateAll_append (us vs : List (κ × Option ν)) :
    m.updateAll (us ++ vs) = (m.updateAll us).updateAll vs := List.foldl_append

/-- 鍵の列を除く更新。 -/
theorem updateAll_erase (ks : List κ) :
    m.updateAll (ks.map (fun k => (k, none))) = m.filter (fun k => !ks.contains k) := by
  induction ks generalizing m with
  | nil =>
    refine eq_of_get?_eq fun k => ?_
    rw [get?_filter]
    rfl
  | cons key ks ih =>
    refine Eq.trans (ih (m := m.update (key, none))) (eq_of_get?_eq fun k => ?_)
    rw [get?_filter, get?_filter, get?_update]
    by_cases hk : k = key <;> simp [hk]

/-- 条件から外れた鍵の更新は、絞った写像を変えない。 -/
theorem filter_update (p : κ → Bool) (u : κ × Option ν) :
    (m.update u).filter p = if p u.1 then (m.filter p).update u else m.filter p := by
  refine eq_of_get?_eq fun k => ?_
  rw [get?_filter, get?_update]
  by_cases hp : p u.1 = true
  · rw [if_pos hp, get?_update, get?_filter]
    by_cases hk : k = u.1
    · rw [if_pos hk, if_pos hk, hk, if_pos hp]
    · rw [if_neg hk, if_neg hk]
  · rw [if_neg hp, get?_filter]
    by_cases hk : k = u.1
    · rw [hk, if_neg hp, if_neg hp]
    · rw [if_neg hk]

/-- **絞った写像は、絞った更新で決まる。** -/
theorem filter_updateAll (p : κ → Bool) (us : List (κ × Option ν)) :
    (m.updateAll us).filter p = (m.filter p).updateAll (us.filter (fun u => p u.1)) := by
  induction us generalizing m with
  | nil => rfl
  | cons u us ih =>
    rw [show m.updateAll (u :: us) = (m.update u).updateAll us from rfl, ih, filter_update]
    by_cases hp : p u.1 = true
    · rw [if_pos hp, List.filter_cons_of_pos (by exact hp)]
      rfl
    · rw [if_neg hp, List.filter_cons_of_neg (by exact hp)]

/-- 更新の列を重ねた写像は、鍵の最新の更新の値を持つ。 -/
theorem get?_updateAll_map {α : Type} [DecidableEq κ] (key : α → κ) (value : α → Option ν)
    (l : List α) (k : κ) : ((empty : OrdMap κ ν).updateAll (l.map (fun a => (key a, value a)))).get? k
      = (newest key l k).bind value := by
  induction l using List.reverseRecOn with
  | nil => rfl
  | append_singleton l a ih =>
    rw [List.map_append, updateAll_append, newest_concat]
    show (update _ (key a, value a)).get? k = _
    rw [get?_update, ih]
    by_cases hk : key a = k
    · rw [if_pos hk.symm, if_pos hk]
      rfl
    · rw [if_neg (Ne.symm hk), if_neg hk]

end OrdMap

/-! ## 番号の付いた更新 -/

section

variable {α κ ν : Type} [LinearOrder κ] {f : α → Int} {l : List α} {a b : Int}

/-- 番号の順に並んだ列は、番号 `a` までとその先に分かれる。番号は重なってよい。 -/
theorem atMost_append_between_of_le (h : l.Pairwise (fun x y => f x ≤ f y)) (hab : a ≤ b) :
    atMost f l a ++ between f l a b = atMost f l b := by
  induction h with
  | nil => rfl
  | @cons x l hx _ ih =>
    unfold atMost between at ih ⊢
    by_cases hxa : f x ≤ a
    · rw [List.filter_cons_of_pos (by simp [hxa]), List.filter_cons_of_neg (by simp [hxa]),
        List.filter_cons_of_pos (by simp [hxa.trans hab]), List.cons_append, ih]
    · -- `x` より後ろに、番号 `a` までの要素はない
      have hnil : l.filter (fun y => decide (f y ≤ a)) = [] :=
        List.filter_eq_nil_iff.mpr fun y hy hya =>
          hxa ((hx y hy).trans (of_decide_eq_true hya))
      rw [hnil, List.nil_append] at ih
      rw [List.filter_cons_of_neg (by simp [hxa]), hnil, List.nil_append]
      by_cases hxb : f x ≤ b
      · rw [List.filter_cons_of_pos (by simp [hxb, not_le.mp hxa]),
          List.filter_cons_of_pos (by simp [hxb]), ih]
      · rw [List.filter_cons_of_neg (by simp [hxb]), List.filter_cons_of_neg (by simp [hxb]), ih]

/-- **番号 `a` までの写像に、その先の更新を重ねる。** -/
theorem updateAll_resume (h : l.Pairwise (fun x y => f x ≤ f y)) (hab : a ≤ b)
    (change : α → κ × Option ν) (m : OrdMap κ ν) :
    m.updateAll ((atMost f l b).map change)
      = (m.updateAll ((atMost f l a).map change)).updateAll ((between f l a b).map change) := by
  rw [← OrdMap.updateAll_append, ← List.map_append, atMost_append_between_of_le h hab]

/-- 番号 `a` までの要素に、その先で条件に合う要素の先頭部分を続けると、どこかの番号までの要素になる。 -/
theorem filter_atMost_append {p : α → Bool} {l' : List α} (h : SortedBy f l)
    (hp : l' <+: l.filter (fun x => p x && decide (a + 1 ≤ f x))) :
    (atMost f l a).filter p ++ l' = (atMost f l ((l'.getLast?.map f).getD a)).filter p := by
  cases hz : l'.getLast? with
  | none =>
    rw [List.getLast?_eq_none_iff.mp hz, List.append_nil]
    rfl
  | some z =>
    have hmem := hp.subset (List.mem_of_getLast? hz)
    have hlt : a + 1 ≤ f z :=
      of_decide_eq_true (Bool.and_eq_true_iff.mp (List.mem_filter.mp hmem).2).2
    have hbetween : l' = (between f l a (f z)).filter p := by
      rw [(h.filter _).isPrefix_eq_atMost hp hz]
      unfold atMost between
      rw [List.filter_filter, List.filter_filter]
      refine List.filter_congr fun x _ => ?_
      rw [Bool.eq_iff_iff]
      simp only [Bool.and_eq_true, decide_eq_true_eq]
      constructor
      · rintro ⟨hx, hpx, hax⟩
        exact ⟨hpx, by omega, hx⟩
      · rintro ⟨hpx, hax, hx⟩
        exact ⟨hx, hpx, by omega⟩
    show _ = (atMost f l (f z)).filter p
    rw [← atMost_append_between_of_le (h.imp fun hlt => le_of_lt hlt) (show a ≤ f z by omega),
      List.filter_append, ← hbetween]

end
