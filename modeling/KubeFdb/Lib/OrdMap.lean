import KubeFdb.Lib.SortedBy

/-!
# 順序付き key-value 写像

鍵の昇順に並んだ entry の list で、順序付き key-value store の一つの subspace を表す。
昇順であることは structure の field が持つので、並びの壊れた写像は作れない。

操作は store が持つ四つと、値をまとめて書き換える `mapValues` である。

* `get?` — 点の読み出し
* `set` — 点の書き込み
* `filter` — 鍵の条件を満たさない entry を消す（点の消去も範囲の消去もこれで書く）
* `entries` — 昇順の走査

性質はすべて「entry が属するか」で述べる。
-/

structure OrdMap (κ ν : Type) [LinearOrder κ] where
  entries : List (κ × ν)
  sorted : SortedBy Prod.fst entries

namespace OrdMap

variable {κ ν : Type} [LinearOrder κ] {m : OrdMap κ ν} {k : κ} {v : ν} {e : κ × ν}

instance [DecidableEq ν] : DecidableEq (OrdMap κ ν) := fun a b =>
  decidable_of_iff (a.entries = b.entries) ⟨fun h => by cases a; cases b; simp_all, fun h => by rw [h]⟩

def empty : OrdMap κ ν := ⟨[], SortedBy.nil⟩

/-- 鍵 `k` の値。 -/
def get? (m : OrdMap κ ν) (k : κ) : Option ν :=
  (m.entries.find? (fun e => decide (e.1 = k))).map Prod.snd

/-- 昇順の list に entry を入れる。同じ鍵があれば置き換える。 -/
def insertEntry (k : κ) (v : ν) : List (κ × ν) → List (κ × ν)
  | [] => [(k, v)]
  | e :: rest =>
    if k < e.1 then (k, v) :: e :: rest
    else if k = e.1 then (k, v) :: rest
    else e :: insertEntry k v rest

theorem mem_insertEntry {l : List (κ × ν)} (h : SortedBy Prod.fst l) :
    e ∈ insertEntry k v l ↔ e = (k, v) ∨ (e ∈ l ∧ e.1 ≠ k) := by
  induction l with
  | nil => simp [insertEntry]
  | cons x t ih =>
    unfold insertEntry
    by_cases h1 : k < x.1
    · rw [if_pos h1, List.mem_cons]
      refine or_congr_right ⟨fun he => ⟨he, ?_⟩, fun he => he.1⟩
      rcases List.mem_cons.mp he with rfl | he
      · exact h1.ne'
      · exact (h1.trans (h.lt_of_mem he)).ne'
    · rw [if_neg h1]
      by_cases h2 : k = x.1
      · rw [if_pos h2, List.mem_cons]
        refine or_congr_right ⟨fun he => ⟨List.mem_cons_of_mem _ he, ?_⟩, ?_⟩
        · rw [h2]; exact (h.lt_of_mem he).ne'
        · rintro ⟨he, hne⟩
          rcases List.mem_cons.mp he with rfl | he
          · exact absurd h2.symm hne
          · exact he
      · rw [if_neg h2, List.mem_cons, ih h.tail, List.mem_cons]
        constructor
        · rintro (rfl | rfl | ⟨he, hne⟩)
          · exact Or.inr ⟨Or.inl rfl, fun hc => h2 hc.symm⟩
          · exact Or.inl rfl
          · exact Or.inr ⟨Or.inr he, hne⟩
        · rintro (rfl | ⟨rfl | he, hne⟩)
          · exact Or.inr (Or.inl rfl)
          · exact Or.inl rfl
          · exact Or.inr (Or.inr ⟨he, hne⟩)

theorem sorted_insertEntry {l : List (κ × ν)} (h : SortedBy Prod.fst l) :
    SortedBy Prod.fst (insertEntry k v l) := by
  induction l with
  | nil => exact SortedBy.singleton _
  | cons x t ih =>
    unfold insertEntry
    by_cases h1 : k < x.1
    · rw [if_pos h1]
      refine List.Pairwise.cons ?_ h
      intro b hb
      rcases List.mem_cons.mp hb with rfl | hb
      · exact h1
      · exact h1.trans (h.lt_of_mem hb)
    · rw [if_neg h1]
      by_cases h2 : k = x.1
      · rw [if_pos h2]
        refine List.Pairwise.cons ?_ h.tail
        intro b hb
        show k < b.1
        rw [h2]
        exact h.lt_of_mem hb
      · rw [if_neg h2]
        refine List.Pairwise.cons ?_ (ih h.tail)
        intro b hb
        rcases (mem_insertEntry h.tail).mp hb with rfl | ⟨hb, -⟩
        · exact lt_of_le_of_ne (not_lt.mp h1) (fun hc => h2 hc.symm)
        · exact h.lt_of_mem hb

/-- 鍵 `k` に値 `v` を書く。 -/
def set (m : OrdMap κ ν) (k : κ) (v : ν) : OrdMap κ ν :=
  ⟨insertEntry k v m.entries, sorted_insertEntry m.sorted⟩

/-- 鍵の条件 `p` を満たす entry だけを残す。 -/
def filter (m : OrdMap κ ν) (p : κ → Bool) : OrdMap κ ν :=
  ⟨m.entries.filter (fun e => p e.1), m.sorted.filter _⟩

/-- 値だけを書き換える。 -/
def mapValues (m : OrdMap κ ν) (f : κ → ν → ν) : OrdMap κ ν :=
  ⟨m.entries.map (fun e => (e.1, f e.1 e.2)), SortedBy.map_iff.mpr m.sorted⟩

/-- 同じ entry を持つ写像は等しい。 -/
theorem eq_of_mem_iff {m' : OrdMap κ ν} (h : ∀ e, e ∈ m.entries ↔ e ∈ m'.entries) : m = m' := by
  have he := SortedBy.eq_of_mem_iff m.sorted m'.sorted h
  cases m
  cases m'
  cases he
  rfl

@[simp] theorem mem_empty : e ∈ (empty : OrdMap κ ν).entries ↔ False := by simp [empty]

@[simp] theorem mem_set : e ∈ (m.set k v).entries ↔ e = (k, v) ∨ (e ∈ m.entries ∧ e.1 ≠ k) :=
  mem_insertEntry m.sorted

@[simp] theorem mem_filter {p : κ → Bool} :
    e ∈ (m.filter p).entries ↔ e ∈ m.entries ∧ p e.1 = true := List.mem_filter

@[simp] theorem mem_mapValues {f : κ → ν → ν} :
    (k, v) ∈ (m.mapValues f).entries ↔ ∃ w, (k, w) ∈ m.entries ∧ v = f k w := by
  unfold mapValues
  rw [List.mem_map]
  constructor
  · rintro ⟨⟨k', w⟩, hm, he⟩
    cases he
    exact ⟨w, hm, rfl⟩
  · rintro ⟨w, hm, rfl⟩
    exact ⟨(k, w), hm, rfl⟩

theorem get?_eq_some_iff : m.get? k = some v ↔ (k, v) ∈ m.entries := by
  unfold get?
  rw [Option.map_eq_some_iff]
  constructor
  · rintro ⟨⟨k', v'⟩, hf, rfl⟩
    have hk := List.find?_some hf
    simp only [decide_eq_true_eq] at hk
    rw [← hk]
    exact List.mem_of_find?_eq_some hf
  · intro hm
    cases hf : m.entries.find? (fun e => decide (e.1 = k)) with
    | none =>
      rw [List.find?_eq_none] at hf
      exact absurd (decide_eq_true rfl) (hf (k, v) hm)
    | some e =>
      have hk := List.find?_some hf
      simp only [decide_eq_true_eq] at hk
      refine ⟨e, rfl, ?_⟩
      rw [m.sorted.eq_of_index_eq (List.mem_of_find?_eq_some hf) hm hk]

@[simp] theorem get?_set_self : (m.set k v).get? k = some v :=
  get?_eq_some_iff.mpr (mem_set.mpr (Or.inl rfl))

theorem get?_set_of_ne {k' : κ} (h : k' ≠ k) : (m.set k v).get? k' = m.get? k' := by
  ext w
  rw [get?_eq_some_iff, get?_eq_some_iff, mem_set]
  simp [h]

@[simp] theorem get?_filter {p : κ → Bool} :
    (m.filter p).get? k = if p k then m.get? k else none := by
  ext w
  rw [get?_eq_some_iff, mem_filter]
  cases p k <;> simp [get?_eq_some_iff]

@[simp] theorem get?_empty : (empty : OrdMap κ ν).get? k = none := rfl

@[simp] theorem get?_mapValues {f : κ → ν → ν} :
    (m.mapValues f).get? k = (m.get? k).map (f k) := by
  ext w
  rw [get?_eq_some_iff, mem_mapValues, Option.map_eq_some_iff]
  refine exists_congr fun u => ?_
  rw [get?_eq_some_iff, eq_comm]

/-- どの鍵の値も同じ写像は等しい。 -/
theorem eq_of_get?_eq {m' : OrdMap κ ν} (h : ∀ k, m.get? k = m'.get? k) : m = m' := by
  refine eq_of_mem_iff fun e => ?_
  rw [← Prod.mk.eta (p := e), ← get?_eq_some_iff, ← get?_eq_some_iff, h]

/-- 鍵の異なる entry を順に書いた結果に属する entry。 -/
theorem mem_foldl_set {α : Type} {key : α → κ} (val : α → ν) :
    ∀ {l : List α} {m : OrdMap κ ν}, SortedBy key l →
    (e ∈ (l.foldl (fun m c => m.set (key c) (val c)) m).entries ↔
      (∃ c ∈ l, e = (key c, val c)) ∨ (e ∈ m.entries ∧ ∀ c ∈ l, e.1 ≠ key c))
  | [], m, _ => by simp
  | c :: l, m, h => by
    rw [List.foldl_cons, mem_foldl_set val h.tail, mem_set]
    constructor
    · rintro (⟨d, hd, rfl⟩ | ⟨rfl | ⟨he, hne⟩, hl⟩)
      · exact Or.inl ⟨d, List.mem_cons_of_mem _ hd, rfl⟩
      · exact Or.inl ⟨c, List.mem_cons_self, rfl⟩
      · refine Or.inr ⟨he, fun d hd => ?_⟩
        rcases List.mem_cons.mp hd with rfl | hd
        · exact hne
        · exact hl d hd
    · rintro (⟨d, hd, rfl⟩ | ⟨he, hl⟩)
      · rcases List.mem_cons.mp hd with rfl | hd
        · exact Or.inr ⟨Or.inl rfl, fun d' hd' => (h.lt_of_mem hd').ne⟩
        · exact Or.inl ⟨d, hd, rfl⟩
      · exact Or.inr ⟨Or.inr ⟨he, hl c List.mem_cons_self⟩,
          fun d hd => hl d (List.mem_cons_of_mem _ hd)⟩

end OrdMap
