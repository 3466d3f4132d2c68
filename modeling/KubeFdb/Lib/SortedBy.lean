import Mathlib.Data.List.Sort
import Mathlib.Tactic

/-!
# 添字で真に昇順に並んだ list

list の各要素に線形順序の添字を与え、添字が真に増えていくことを `SortedBy` と書く。
順序付きの store を list で読むときの道具をここに集める。

* `SortedBy.eq_of_mem_iff` — 同じ要素を持つ二つの昇順の list は等しい
* `SortedBy.getLast?_eq_some_iff` — 末尾は添字が最大の要素である
* `between`、`atMost` — 添字が区間に入る要素。昇順の list では、区間をつなぐと列もつながる
* `between_split` — 区間の列をどこで分けても、二つの区間になる
* `newest` — 指定した鍵を持つ要素のうち最後のもの
-/

/-- 添字 `f` が真に昇順であること。 -/
def SortedBy {α κ : Type} [LinearOrder κ] (f : α → κ) (l : List α) : Prop :=
  l.Pairwise (fun a b => f a < f b)

namespace SortedBy

variable {α β κ : Type} [LinearOrder κ] {f : α → κ} {l l' : List α}

theorem nil : SortedBy f [] := List.Pairwise.nil

theorem singleton (a : α) : SortedBy f [a] := List.pairwise_singleton _ _

theorem sublist (h : SortedBy f l) (hs : l'.Sublist l) : SortedBy f l' :=
  List.Pairwise.sublist hs h

theorem filter (h : SortedBy f l) (p : α → Bool) : SortedBy f (l.filter p) :=
  h.sublist List.filter_sublist

theorem tail {a : α} (h : SortedBy f (a :: l)) : SortedBy f l := h.of_cons

theorem lt_of_mem {a b : α} (h : SortedBy f (a :: l)) (hb : b ∈ l) : f a < f b :=
  List.rel_of_pairwise_cons h hb

theorem nodup (h : SortedBy f l) : l.Nodup :=
  h.imp (fun hab he => by subst he; exact lt_irrefl _ hab)

theorem append_iff : SortedBy f (l ++ l') ↔
    SortedBy f l ∧ SortedBy f l' ∧ ∀ a ∈ l, ∀ b ∈ l', f a < f b :=
  List.pairwise_append

/-- 添字が最大の要素を末尾に足しても昇順である。 -/
theorem concat (h : SortedBy f l) {a : α} (ha : ∀ b ∈ l, f b < f a) : SortedBy f (l ++ [a]) := by
  refine append_iff.mpr ⟨h, singleton a, ?_⟩
  intro b hb c hc
  rw [List.mem_singleton.mp hc]
  exact ha b hb

/-- 添字が等しい要素は等しい。 -/
theorem eq_of_index_eq (h : SortedBy f l) {a b : α} (ha : a ∈ l) (hb : b ∈ l)
    (he : f a = f b) : a = b := by
  induction l with
  | nil => exact absurd ha List.not_mem_nil
  | cons x t ih =>
    rcases List.mem_cons.mp ha with rfl | ha'
    · rcases List.mem_cons.mp hb with hb' | hb'
      · exact hb'.symm
      · exact absurd he (ne_of_lt (h.lt_of_mem hb'))
    · rcases List.mem_cons.mp hb with rfl | hb'
      · exact absurd he.symm (ne_of_lt (h.lt_of_mem ha'))
      · exact ih h.tail ha' hb'

/-- 同じ要素を持つ二つの昇順の list は等しい。 -/
theorem eq_of_mem_iff (h : SortedBy f l) (h' : SortedBy f l') (hm : ∀ a, a ∈ l ↔ a ∈ l') :
    l = l' := by
  have hp : l.Perm l' := (List.perm_ext_iff_of_nodup h.nodup h'.nodup).mpr hm
  exact hp.eq_of_pairwise (fun a b _ _ hab hba => absurd hab (not_lt.mpr hba.le)) h h'

/-- 末尾の要素は、添字が最大の要素である。 -/
theorem getLast?_eq_some_iff (h : SortedBy f l) {a : α} :
    l.getLast? = some a ↔ a ∈ l ∧ ∀ b ∈ l, f b ≤ f a := by
  constructor
  · intro hl
    obtain ⟨ys, rfl⟩ := List.getLast?_eq_some_iff.mp hl
    refine ⟨by simp, ?_⟩
    intro b hb
    rcases List.mem_append.mp hb with hb | hb
    · exact ((append_iff.mp h).2.2 b hb a (by simp)).le
    · rw [List.mem_singleton.mp hb]
  · rintro ⟨ha, hmax⟩
    cases hl : l.getLast? with
    | none => rw [List.getLast?_eq_none_iff.mp hl] at ha; exact absurd ha List.not_mem_nil
    | some b =>
      obtain ⟨ys, rfl⟩ := List.getLast?_eq_some_iff.mp hl
      rcases List.mem_append.mp ha with ha | ha
      · have hlt := (append_iff.mp h).2.2 a ha b (by simp)
        exact absurd (hmax b (by simp)) (not_le.mpr hlt)
      · rw [List.mem_singleton.mp ha]

/-- 先頭から `n` 個と残りでは、前者の添字が小さい。 -/
theorem take_lt_drop (h : SortedBy f l) (n : Nat) {a b : α} (ha : a ∈ l.take n)
    (hb : b ∈ l.drop n) : f a < f b := by
  rw [← List.take_append_drop n l] at h
  exact (append_iff.mp h).2.2 a ha b hb

/-- 昇順の list の先頭部分は、添字について下に閉じている。 -/
theorem mem_of_isPrefix (h : SortedBy f l) (hp : l' <+: l) {x z : α} (hx : x ∈ l) (hz : z ∈ l')
    (hle : f x ≤ f z) : x ∈ l' := by
  obtain ⟨t, rfl⟩ := hp
  rcases List.mem_append.mp hx with hx | hx
  · exact hx
  · exact absurd ((append_iff.mp h).2.2 z hz x hx) (not_lt.mpr hle)

theorem getElem?_lt (h : SortedBy f l) {i j : Nat} {a b : α} (ha : l[i]? = some a)
    (hb : l[j]? = some b) (hij : i < j) : f a < f b := by
  obtain ⟨hi, rfl⟩ := List.getElem?_eq_some_iff.mp ha
  obtain ⟨hj, rfl⟩ := List.getElem?_eq_some_iff.mp hb
  exact List.pairwise_iff_getElem.mp h i j hi hj hij

theorem map_iff {g : β → α} {m : List β} : SortedBy f (m.map g) ↔ SortedBy (fun b => f (g b)) m :=
  List.pairwise_map

end SortedBy

/-! ## 区間 -/

section Between

variable {α κ : Type} [LinearOrder κ] {f : α → κ} {l : List α} {a b c : κ}

/-- 添字が `a` より大きく `b` 以下の要素。 -/
def between (f : α → κ) (l : List α) (a b : κ) : List α :=
  l.filter (fun x => decide (a < f x) && decide (f x ≤ b))

theorem mem_between {x : α} : x ∈ between f l a b ↔ x ∈ l ∧ a < f x ∧ f x ≤ b := by
  simp [between]

theorem between_sorted (h : SortedBy f l) (a b : κ) : SortedBy f (between f l a b) := h.filter _

theorem between_of_le (h : b ≤ a) : between f l a b = [] :=
  List.filter_eq_nil_iff.mpr fun x _ hx => by
    obtain ⟨h1, h2⟩ : a < f x ∧ f x ≤ b := by simpa using hx
    exact absurd (h1.trans_le (h2.trans h)) (lt_irrefl _)

/-- 隣り合う区間の列をつなぐ。 -/
theorem between_append (h : SortedBy f l) (hab : a ≤ b) (hbc : b ≤ c) :
    between f l a b ++ between f l b c = between f l a c := by
  refine SortedBy.eq_of_mem_iff (SortedBy.append_iff.mpr ⟨between_sorted h a b, between_sorted h b c,
    fun x hx y hy => ?_⟩) (between_sorted h a c) fun x => ?_
  · exact (mem_between.mp hx).2.2.trans_lt (mem_between.mp hy).2.1
  · rw [List.mem_append, mem_between, mem_between, mem_between]
    constructor
    · rintro (⟨hx, h1, h2⟩ | ⟨hx, h1, h2⟩)
      · exact ⟨hx, h1, h2.trans hbc⟩
      · exact ⟨hx, hab.trans_lt h1, h2⟩
    · rintro ⟨hx, h1, h2⟩
      rcases le_or_gt (f x) b with hb | hb
      · exact Or.inl ⟨hx, h1, hb⟩
      · exact Or.inr ⟨hx, hb, h2⟩

/-- 区間の後ろに足しても変わらない。 -/
theorem between_concat {x : α} (h : b < f x) : between f (l ++ [x]) a b = between f l a b := by
  unfold between
  rw [List.filter_append, List.filter_singleton, decide_eq_false (not_le.mpr h), Bool.and_false]
  exact List.append_nil _

/-- 区間の先頭の要素を切り離す。 -/
theorem between_cons (h : SortedBy f l) {x : α} {t : List α} (hb : between f l a b = x :: t) :
    between f l a (f x) = [x] ∧ between f l (f x) b = t := by
  obtain ⟨hx, hax, hxb⟩ := mem_between.mp (hb ▸ List.mem_cons_self)
  rw [← between_append h hax.le hxb] at hb
  -- `x` までの区間の要素は、`x` より後ろにない
  have hmem : x ∈ between f l a (f x) := mem_between.mpr ⟨hx, hax, le_rfl⟩
  cases hl : between f l a (f x) with
  | nil => rw [hl] at hmem; exact absurd hmem List.not_mem_nil
  | cons y ys =>
    rw [hl, List.cons_append] at hb
    obtain ⟨rfl, ht⟩ := List.cons.inj hb
    have hnil : ys = [] := by
      refine List.eq_nil_iff_forall_not_mem.mpr fun z hz => ?_
      have hlt := (hl ▸ between_sorted h a (f y) : SortedBy f (y :: ys)).lt_of_mem hz
      exact absurd (mem_between.mp (hl ▸ List.mem_cons_of_mem y hz)).2.2 (not_le.mpr hlt)
    subst hnil
    exact ⟨rfl, ht⟩

/-- 添字が `b` 以下の要素。 -/
def atMost (f : α → κ) (l : List α) (b : κ) : List α := l.filter (fun x => decide (f x ≤ b))

theorem mem_atMost {x : α} : x ∈ atMost f l b ↔ x ∈ l ∧ f x ≤ b := by simp [atMost]

theorem atMost_sorted (h : SortedBy f l) (b : κ) : SortedBy f (atMost f l b) := h.filter _

/-- 区間を後ろにつなぐ。 -/
theorem atMost_append_between (h : SortedBy f l) (hab : a ≤ b) :
    atMost f l a ++ between f l a b = atMost f l b := by
  refine SortedBy.eq_of_mem_iff (SortedBy.append_iff.mpr ⟨atMost_sorted h a, between_sorted h a b,
    fun x hx y hy => (mem_atMost.mp hx).2.trans_lt (mem_between.mp hy).2.1⟩) (atMost_sorted h b)
    fun x => ?_
  rw [List.mem_append, mem_atMost, mem_between, mem_atMost]
  constructor
  · rintro (⟨hx, hxa⟩ | ⟨hx, -, hxb⟩)
    · exact ⟨hx, hxa.trans hab⟩
    · exact ⟨hx, hxb⟩
  · rintro ⟨hx, hxb⟩
    rcases le_or_gt (f x) a with hxa | hxa
    · exact Or.inl ⟨hx, hxa⟩
    · exact Or.inr ⟨hx, hxa, hxb⟩

theorem atMost_concat {x : α} (h : b < f x) : atMost f (l ++ [x]) b = atMost f l b := by
  unfold atMost
  rw [List.filter_append, List.filter_singleton, decide_eq_false (not_le.mpr h)]
  exact List.append_nil _

/-- 昇順の list では、添字が `b` 以下の要素は先頭に並ぶ。 -/
theorem atMost_isPrefix (h : SortedBy f l) (b : κ) : atMost f l b <+: l := by
  refine ⟨l.filter (fun x => decide (b < f x)), SortedBy.eq_of_mem_iff
    (SortedBy.append_iff.mpr ⟨atMost_sorted h b, h.filter _, fun x hx y hy => ?_⟩) h fun x => ?_⟩
  · exact (mem_atMost.mp hx).2.trans_lt (of_decide_eq_true (List.mem_filter.mp hy).2)
  · rw [List.mem_append, mem_atMost, List.mem_filter, decide_eq_true_eq]
    constructor
    · rintro (⟨hx, -⟩ | ⟨hx, -⟩)
      · exact hx
      · exact hx
    · intro hx
      rcases le_or_gt (f x) b with hb | hb
      · exact Or.inl ⟨hx, hb⟩
      · exact Or.inr ⟨hx, hb⟩

/-- 昇順の list の先頭部分は、その末尾以下の要素である。 -/
theorem SortedBy.isPrefix_eq_atMost {l' : List α} {z : α} (h : SortedBy f l) (hp : l' <+: l)
    (hz : l'.getLast? = some z) : l' = atMost f l (f z) := by
  have hs := h.sublist hp.sublist
  obtain ⟨hzm, hmax⟩ := hs.getLast?_eq_some_iff.mp hz
  refine SortedBy.eq_of_mem_iff hs (atMost_sorted h (f z)) fun x => ?_
  rw [mem_atMost]
  exact ⟨fun hx => ⟨hp.subset hx, hmax x hx⟩, fun hx => h.mem_of_isPrefix hp hx.1 hzm hx.2⟩

/-- 下に閉じた昇順の list は、先頭部分である。 -/
theorem SortedBy.isPrefix_of_closed {l' : List α} (h : SortedBy f l) (h' : SortedBy f l')
    (hsub : ∀ x ∈ l', x ∈ l) (hclosed : ∀ z ∈ l', ∀ x ∈ l, f x ≤ f z → x ∈ l') : l' <+: l := by
  cases hz : l'.getLast? with
  | none => rw [List.getLast?_eq_none_iff.mp hz]; exact List.nil_prefix
  | some z =>
    obtain ⟨hzm, hmax⟩ := h'.getLast?_eq_some_iff.mp hz
    have heq : l' = atMost f l (f z) := by
      refine SortedBy.eq_of_mem_iff h' (atMost_sorted h (f z)) fun x => ?_
      rw [mem_atMost]
      exact ⟨fun hx => ⟨hsub x hx, hmax x hx⟩, fun hx => hclosed z hzm x hx.1 hx.2⟩
    rw [heq]
    exact atMost_isPrefix h (f z)

/-- `a` より後ろの列の先頭部分は、その末尾までの区間である。 -/
theorem between_getLast (h : SortedBy f l) {m : Nat} {z : α}
    (hz : ((l.filter (fun x => decide (a < f x))).take m).getLast? = some z) :
    between f l a (f z) = (l.filter (fun x => decide (a < f x))).take m := by
  have hs := h.filter (fun x => decide (a < f x))
  have hst := hs.sublist (List.take_sublist m _)
  have hmax := (hst.getLast?_eq_some_iff.mp hz).2
  refine SortedBy.eq_of_mem_iff (between_sorted h a (f z)) hst fun x => ?_
  rw [mem_between]
  constructor
  · rintro ⟨hx, h1, h2⟩
    have hxf : x ∈ l.filter (fun x => decide (a < f x)) :=
      List.mem_filter.mpr ⟨hx, decide_eq_true h1⟩
    rw [← List.take_append_drop m (l.filter _)] at hxf
    rcases List.mem_append.mp hxf with hx | hx
    · exact hx
    · exact absurd (hs.take_lt_drop m (List.mem_of_getLast? hz) hx) (not_lt.mpr h2)
  · intro hx
    obtain ⟨hxl, h1⟩ := List.mem_filter.mp (List.mem_of_mem_take hx)
    exact ⟨hxl, of_decide_eq_true h1, hmax x hx⟩

/-- 区間の列を前と後ろに分けると、どちらも、前の部分の末尾で分けた区間である。 -/
theorem between_split (h : SortedBy f l) (hab : a ≤ b) {pre post : List α}
    (hb : pre ++ post = between f l a b) :
    a ≤ (pre.getLast?.map f).getD a ∧ (pre.getLast?.map f).getD a ≤ b ∧
      pre = between f l a ((pre.getLast?.map f).getD a) ∧
      post = between f l ((pre.getLast?.map f).getD a) b := by
  cases hz : pre.getLast? with
  | none =>
    obtain rfl := List.getLast?_eq_none_iff.mp hz
    exact ⟨le_rfl, hab, (between_of_le le_rfl).symm, hb⟩
  | some z =>
    have hs : SortedBy f (pre ++ post) := hb ▸ between_sorted h a b
    have hmem : ∀ x, x ∈ pre ++ post ↔ x ∈ l ∧ a < f x ∧ f x ≤ b := fun x => by
      rw [hb, mem_between]
    obtain ⟨hzp, hmax⟩ := (SortedBy.append_iff.mp hs).1.getLast?_eq_some_iff.mp hz
    obtain ⟨-, haz, hzb⟩ := (hmem z).mp (List.mem_append_left _ hzp)
    have hpre : pre = between f l a (f z) := by
      refine SortedBy.eq_of_mem_iff (SortedBy.append_iff.mp hs).1 (between_sorted h a (f z))
        fun x => ?_
      rw [mem_between]
      constructor
      · intro hx
        obtain ⟨hxl, hax, -⟩ := (hmem x).mp (List.mem_append_left _ hx)
        exact ⟨hxl, hax, hmax x hx⟩
      · rintro ⟨hxl, hax, hxz⟩
        have hx := (hmem x).mpr ⟨hxl, hax, hxz.trans hzb⟩
        exact hs.mem_of_isPrefix (List.prefix_append _ _) hx hzp hxz
    have hpost : pre ++ post = pre ++ between f l (f z) b := by
      rw [hb, ← between_append h haz.le hzb, ← hpre]
    exact ⟨haz.le, hzb, hpre, List.append_cancel_left hpost⟩

end Between

/-! ## 鍵ごとの最新の要素 -/

section Newest

variable {α κ ρ : Type} [DecidableEq κ] [LinearOrder ρ] {key : α → κ} {rank : α → ρ}
  {l : List α} {k : κ}

/-- 鍵 `k` を持つ要素のうち最後のもの。昇順の list では添字が最大のものになる。 -/
def newest (key : α → κ) (l : List α) (k : κ) : Option α :=
  (l.filter (fun a => decide (key a = k))).getLast?

theorem newest_eq_some_iff (h : SortedBy rank l) {a : α} :
    newest key l k = some a ↔
      a ∈ l ∧ key a = k ∧ ∀ b ∈ l, key b = k → rank b ≤ rank a := by
  unfold newest
  rw [(h.filter _).getLast?_eq_some_iff]
  constructor
  · rintro ⟨ha, hmax⟩
    obtain ⟨hl, hk⟩ := List.mem_filter.mp ha
    refine ⟨hl, by simpa using hk, fun b hb hbk => hmax b ?_⟩
    exact List.mem_filter.mpr ⟨hb, by simpa using hbk⟩
  · rintro ⟨hl, hk, hmax⟩
    refine ⟨List.mem_filter.mpr ⟨hl, by simpa using hk⟩, fun b hb => ?_⟩
    obtain ⟨hbl, hbk⟩ := List.mem_filter.mp hb
    exact hmax b hbl (by simpa using hbk)

theorem newest_eq_none_iff : newest key l k = none ↔ ∀ a ∈ l, key a ≠ k := by
  unfold newest
  rw [List.getLast?_eq_none_iff, List.filter_eq_nil_iff]
  simp

theorem newest_mem {a : α} (h : newest key l k = some a) : a ∈ l ∧ key a = k := by
  have hm := List.mem_of_getLast? h
  obtain ⟨hl, hk⟩ := List.mem_filter.mp hm
  exact ⟨hl, by simpa using hk⟩

/-- 鍵 `k` の要素があれば最新の要素もある。 -/
theorem exists_newest (key : α → κ) {a : α} (ha : a ∈ l) (hk : key a = k) : ∃ b, newest key l k = some b := by
  cases hn : newest key l k with
  | some b => exact ⟨b, rfl⟩
  | none => exact absurd hk (newest_eq_none_iff.mp hn a ha)

@[simp] theorem newest_nil : newest key ([] : List α) k = none := rfl

theorem newest_concat (a : α) :
    newest key (l ++ [a]) k = if key a = k then some a else newest key l k := by
  unfold newest
  rw [List.filter_append]
  by_cases hk : key a = k
  · simp [hk]
  · simp [hk]

/-- 鍵の条件で絞った列の最新の要素。 -/
theorem newest_filter (key : α → κ) (p : κ → Bool) (l : List α) (k : κ) :
    newest key (l.filter (fun a => p (key a))) k = if p k then newest key l k else none := by
  unfold newest
  rw [List.filter_filter]
  by_cases hp : p k = true
  · rw [if_pos hp]
    refine congrArg _ (List.filter_congr fun a _ => ?_)
    by_cases hk : key a = k <;> simp [hk, hp]
  · rw [if_neg hp, List.getLast?_eq_none_iff, List.filter_eq_nil_iff]
    intro a _ ha
    obtain ⟨hk, hpa⟩ := Bool.and_eq_true_iff.mp ha
    exact hp (of_decide_eq_true hk ▸ hpa)

end Newest
