import Mathlib.Tactic

/-!
# 前の列に続く要素

`EachAfter P l` は、列 `l` のどの要素も、その前の列に対して `P` を満たすことをいう。末尾に足していく列（log や
履歴）の性質は、この形なら、足すときの一つの条件から得られる。

* `eachAfter_concat_iff` — 末尾の要素を分ける
* `EachAfter.of_prefix` — 先頭部分でも成り立つ
* `EachAfter.concatRec` — 末尾に足していく帰納法
-/

variable {α : Type} {P : List α → α → Prop} {l l' : List α} {a : α}

/-- 列のどの要素も、その前の列に対して `P` を満たすこと。 -/
def EachAfter (P : List α → α → Prop) (l : List α) : Prop := ∀ pre a, pre ++ [a] <+: l → P pre a

theorem eachAfter_nil : EachAfter P [] := fun pre a h => by simp at h

theorem EachAfter.of_prefix (h : EachAfter P l) (hp : l' <+: l) : EachAfter P l' :=
  fun pre a ha => h pre a (ha.trans hp)

theorem EachAfter.concat (h : EachAfter P l) (ha : P l a) : EachAfter P (l ++ [a]) := by
  intro pre b hp
  rcases List.prefix_concat_iff.mp hp with he | hp
  · obtain ⟨hl, hb⟩ := List.append_inj' he rfl
    rw [hl, (List.cons.inj hb).1]
    exact ha
  · exact h pre b hp

theorem eachAfter_concat_iff : EachAfter P (l ++ [a]) ↔ EachAfter P l ∧ P l a :=
  ⟨fun h => ⟨h.of_prefix (List.prefix_append _ _), h l a List.prefix_rfl⟩, fun h => h.1.concat h.2⟩

/-- 列の途中の要素も、その前の列に続く。 -/
theorem EachAfter.at {post : List α} (h : EachAfter P (l ++ a :: post)) :
    EachAfter P (l ++ [a]) ∧ P l a := by
  have hp : l ++ [a] <+: l ++ a :: post := ⟨post, by simp⟩
  exact ⟨h.of_prefix hp, h l a hp⟩

/-- 空の列に要素を一つずつ足していく帰納法。 -/
@[elab_as_elim]
theorem EachAfter.concatRec {motive : (l : List α) → EachAfter P l → Prop}
    (nil : motive [] eachAfter_nil)
    (concat : ∀ (l : List α) (a : α) (h : EachAfter P l) (ha : P l a),
      motive l h → motive (l ++ [a]) (h.concat ha)) {l : List α} (h : EachAfter P l) :
    motive l h := by
  induction l using List.reverseRecOn with
  | nil => exact nil
  | append_singleton l a ih =>
    obtain ⟨hl, ha⟩ := eachAfter_concat_iff.mp h
    exact concat l a hl ha (ih hl)
