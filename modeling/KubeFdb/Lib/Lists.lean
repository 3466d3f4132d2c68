import Mathlib.Tactic

/-!
# 列の補題

列の一箇所を変えたときに残る性質と、列の要素の順。

* `forall_mem_concat`、`forall_mem_set` — 末尾に足しても、一つを取り替えても、どの要素でも成り立つことは残る
* `pair_sublist_or` — 二つの異なる要素は、どちらかの順に並ぶ
* `perm_filterMap_getElem?` — 番号の列から取り出した要素の並べ替え
* `forall₂_zip`、`optionRel_imp` — 対応する列と `Option`
-/

section

variable {α : Type} {P : α → Prop} {l : List α} {a b : α}

theorem forall_mem_concat (h : ∀ x ∈ l, P x) (ha : P a) : ∀ x ∈ l ++ [a], P x :=
  List.forall_mem_append.mpr ⟨h, List.forall_mem_singleton.mpr ha⟩

theorem forall_mem_set {i : Nat} (h : ∀ x ∈ l, P x) (ha : P a) : ∀ x ∈ l.set i a, P x := by
  intro x hx
  rcases List.mem_or_eq_of_mem_set hx with hx | rfl
  · exact h x hx
  · exact ha

/-- 後ろの要素と違う要素を先頭に足す。 -/
theorem nodup_cons_of_fresh {P' Q : α → Prop} (hl : l.Nodup) (hmem : ∀ x ∈ l, Q x ∧ P x)
    (ha : Q a ∧ P' a) (hfresh : ∀ x, P x → x ≠ a) (himp : ∀ x, P x → P' x) :
    (a :: l).Nodup ∧ ∀ x ∈ a :: l, Q x ∧ P' x := by
  refine ⟨List.nodup_cons.mpr ⟨fun h => hfresh a (hmem a h).2 rfl, hl⟩, fun x hx => ?_⟩
  rcases List.mem_cons.mp hx with rfl | hx
  · exact ha
  · exact ⟨(hmem x hx).1, himp x (hmem x hx).2⟩

/-- 列の二つの異なる要素は、どちらかの順に並ぶ。 -/
theorem pair_sublist_or (ha : a ∈ l) (hb : b ∈ l) (hne : a ≠ b) :
    [a, b].Sublist l ∨ [b, a].Sublist l := by
  obtain ⟨l₁, l₂, rfl⟩ := List.append_of_mem ha
  rcases List.mem_append.mp hb with hb | hb
  · have hpair : ([b] ++ [a]).Sublist (l₁ ++ a :: l₂) :=
      (List.singleton_sublist.mpr hb).append (List.singleton_sublist.mpr List.mem_cons_self)
    exact Or.inr hpair
  · rcases List.mem_cons.mp hb with rfl | hb
    · exact absurd rfl hne
    · refine Or.inl (List.Sublist.trans ?_ (List.sublist_append_right l₁ _))
      exact (List.singleton_sublist.mpr hb).cons_cons a

/-- 番号の列から取り出した要素は、条件を満たす要素の並べ替えである。 -/
theorem perm_filterMap_getElem? {is : List Nat} {q : α → Bool}
    (hn : is.Nodup) (h : ∀ i, i ∈ is ↔ ∃ a, l[i]? = some a ∧ q a = true) :
    (is.filterMap (fun i => l[i]?)).Perm (l.filter q) := by
  have hsub : ((l.zipIdx.filter (fun x => q x.1)).map Prod.snd).Sublist (l.zipIdx.map Prod.snd) :=
    List.filter_sublist.map _
  have hnodup : ((l.zipIdx.filter (fun x => q x.1)).map Prod.snd).Nodup := by
    refine hsub.nodup ?_
    rw [List.zipIdx_map_snd]
    exact List.nodup_range'
  have hperm : is.Perm ((l.zipIdx.filter (fun x => q x.1)).map Prod.snd) := by
    refine (List.perm_ext_iff_of_nodup hn hnodup).mpr fun i => ?_
    rw [h, List.mem_map]
    constructor
    · rintro ⟨a, ha, hq⟩
      exact ⟨(a, i), List.mem_filter.mpr ⟨List.mem_zipIdx_iff_getElem?.mpr ha, hq⟩, rfl⟩
    · rintro ⟨x, hx, rfl⟩
      obtain ⟨hx, hq⟩ := List.mem_filter.mp hx
      exact ⟨x.1, List.mem_zipIdx_iff_getElem?.mp hx, hq⟩
  refine (hperm.filterMap _).trans ?_
  have hfst : ((l.zipIdx.filter (fun x => q x.1)).map Prod.snd).filterMap (fun i => l[i]?)
      = (l.zipIdx.filter (fun x => q x.1)).map Prod.fst := by
    rw [List.filterMap_map, ← List.filterMap_eq_map]
    refine List.filterMap_congr fun x hx => ?_
    exact List.mem_zipIdx_iff_getElem?.mp (List.mem_filter.mp hx).1
  have hfilter : (l.zipIdx.filter (fun x => q x.1)).map Prod.fst = l.filter q := by
    conv_rhs => rw [← List.zipIdx_map_fst 0 l, List.filter_map]
    rfl
  rw [hfst, hfilter]

end

section

variable {α β γ : Type} {R S : α → β → Prop}

/-- 同じ列と組にしても、対応は残る。 -/
theorem forall₂_zip : ∀ {l : List α} {l' : List β}, List.Forall₂ R l l' → ∀ cs : List γ,
    List.Forall₂ (fun x y => R x.1 y.1 ∧ x.2 = y.2) (l.zip cs) (l'.zip cs)
  | _, _, .nil, _ => .nil
  | _, _, .cons _ _, [] => .nil
  | _, _, .cons hr hrest, _ :: cs => .cons ⟨hr, rfl⟩ (forall₂_zip hrest cs)

theorem optionRel_imp : ∀ {a : Option α} {b : Option β},
    Option.Rel R a b → (∀ x ∈ a, ∀ y ∈ b, R x y → S x y) → Option.Rel S a b
  | _, _, .some h, hRS => .some (hRS _ rfl _ rfl h)
  | _, _, .none, _ => .none

end
