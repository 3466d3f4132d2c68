import KubeFdb.Properties.Scan

/-!
# 走査の範囲

`listWithCollector` の範囲は byte 列の端点で決まる。端点の間に入るかどうかは鍵だけで決まり
（`mem_listRange_iff`）、revision によらない。したがって、範囲は同じ鍵の record を分けない。
-/

namespace KubeFdb

open Tuple

/-- 範囲に入る鍵。`startKey` から始まる走査では、`startKey` に NUL を足して始まる鍵も飛ばす。 -/
def inListRange (prefix_ startKey key : Key) : Bool :=
  if hasSlashSuffix prefix_ then
    (if prefix_ ≠ startKey then decide (startKey < key) && !(startKey ++ [0]).isPrefixOf key
      else decide (startKey ≤ key)) &&
    (decide (key < prefix_) || prefix_.isPrefixOf key)
  else decide (key = prefix_)

theorem hasSlashSuffix_iff {s : Key} : hasSlashSuffix s = true ↔ ∃ p, s = p ++ [0x2F] := by
  rw [hasSlashSuffix, decide_eq_true_eq, List.getLast?_eq_some_iff]

/-- 範囲に入るかどうかは鍵だけで決まる。 -/
theorem mem_listRange_iff {prefix_ startKey : Key} {range : Bytes × Bytes}
    (h : listRange prefix_ startKey = .ok range) (k : IndexKey) :
    (decide (range.1 ≤ packIndexKey k) && decide (packIndexKey k < range.2))
      = inListRange prefix_ startKey k.key := by
  have hel := isElement_packVersionstamp k.rev.toNat
  unfold listRange at h
  unfold inListRange packIndexKey
  cases hs : hasSlashSuffix prefix_ with
  | true =>
    obtain ⟨p, rfl⟩ := hasSlashSuffix_iff.mp hs
    simp only [hs, if_true] at h ⊢
    rw [strinc_packString_dropLast (by decide) (by decide), Option.getD_some,
      strinc_packString, Option.getD_some] at h
    cases h
    have hupper : (packString k.key ++ packVersionstamp k.rev.toNat < 2 :: (escape p ++ [0x2F + 1])) ↔
        (k.key < p ++ [0x2F] ∨ p ++ [0x2F] <+: k.key) :=
      append_lt_prefixEnd_iff hel.2.le (by decide)
    rw [Bool.eq_iff_iff]
    simp only [Bool.and_eq_true, Bool.or_eq_true, decide_eq_true_eq, hupper,
      List.isPrefixOf_iff_prefix]
    refine and_congr_left fun _ => ?_
    by_cases hps : p ++ [0x2F] ≠ startKey
    · rw [if_pos hps, if_pos hps, ← not_lt, append_lt_strinc_iff hel.2.le]
      simp only [not_or, not_le, Bool.and_eq_true, decide_eq_true_eq, Bool.not_eq_true',
        ← Bool.not_eq_true, List.isPrefixOf_iff_prefix]
    · rw [if_neg hps, if_neg hps, ← not_lt, append_lt_packString_iff hel]
      simp
  | false =>
    simp only [hs, Bool.false_eq_true, if_false] at h ⊢
    split at h
    · cases h
    · cases h
      rw [Bool.eq_iff_iff]
      simp only [Bool.and_eq_true, decide_eq_true_eq]
      exact append_mem_sub_iff hel

/-! ## 索引の並びの record -/

theorem exists_map_eq {α β : Type} {f : α → β} {P : α → Prop} : ∀ {l : List β},
    (∀ b ∈ l, ∃ a, P a ∧ f a = b) → ∃ l' : List α, l'.map f = l ∧ ∀ a ∈ l', P a
  | [], _ => ⟨[], rfl, fun a ha => absurd ha List.not_mem_nil⟩
  | b :: l, h => by
    obtain ⟨a, ha, rfl⟩ := h b List.mem_cons_self
    obtain ⟨l', hl, hP⟩ := exists_map_eq (fun c hc => h c (List.mem_cons_of_mem _ hc))
    refine ⟨a :: l', by rw [List.map_cons, hl], fun c hc => ?_⟩
    rcases List.mem_cons.mp hc with rfl | hc
    · exact ha
    · exact hP c hc

/-- 索引の entry を条件で選んだ列は、record の列を索引の順に並べたものである。 -/
theorem exists_indexed {db : Db} {recs : List RevRecord} (h : db.Holds recs)
    (q : IndexKey → Bool) :
    ∃ l : List RevRecord, db.byKeyAndRevision.entries.filter (fun e => q e.1) = l.map indexEntry ∧
      IndexOrdered l ∧ ∀ r, r ∈ l ↔ r ∈ recs ∧ q (indexKey r.key r.rev) = true := by
  have hex : ∀ e ∈ db.byKeyAndRevision.entries.filter (fun e => q e.1),
      ∃ r, (r ∈ recs ∧ q (indexKey r.key r.rev) = true) ∧ indexEntry r = e := by
    intro e he
    obtain ⟨hm, hq⟩ := List.mem_filter.mp he
    obtain ⟨r, hr, rfl⟩ := (h.index e).mp hm
    exact ⟨r, ⟨hr, hq⟩, rfl⟩
  obtain ⟨l, hl, hP⟩ := exists_map_eq hex
  have hsorted := db.byKeyAndRevision.sorted.filter (fun e => q e.1)
  rw [← hl] at hsorted
  have hord : IndexOrdered l := (SortedBy.map_iff (f := Prod.fst) (g := indexEntry)).mp hsorted
  refine ⟨l, hl.symm, hord, fun r => ⟨hP r, ?_⟩⟩
  rintro ⟨hr, hq⟩
  have hmem : indexEntry r ∈ db.byKeyAndRevision.entries.filter (fun e => q e.1) :=
    List.mem_filter.mpr ⟨(h.index _).mpr ⟨r, hr, rfl⟩, hq⟩
  rw [← hl] at hmem
  obtain ⟨r', hr', he⟩ := List.mem_map.mp hmem
  have hrev : r'.rev = r.rev := congrArg (fun e : IndexKey × IndexTuple => e.1.rev) he
  rw [← h.sorted.eq_of_index_eq (hP r' hr').1 hr hrev]
  exact hr'

/-- まだ読んでいない範囲は、record の列を索引の順に並べたものである。 -/
theorem exists_rest {db : Db} {recs : List RevRecord} (h : db.Holds recs) {prefix_ startKey : Key}
    {range : Bytes × Bytes} (hr : listRange prefix_ startKey = .ok range) (begin_ : Option IndexKey) :
    ∃ rest : List RevRecord, indexRange range db begin_ = rest.map indexEntry ∧
      IndexOrdered rest ∧ ∀ r, r ∈ rest ↔ r ∈ recs ∧ inListRange prefix_ startKey r.key = true ∧
        ∀ b ∈ begin_, b < indexKey r.key r.rev := by
  have hin : ∀ k : IndexKey, (decide (range.1 ≤ packIndexKey k) && decide (packIndexKey k < range.2))
      = inListRange prefix_ startKey k.key := mem_listRange_iff hr
  cases begin_ with
  | none =>
    obtain ⟨l, hl, ho, hm⟩ := exists_indexed h (fun k => inListRange prefix_ startKey k.key)
    refine ⟨l, ?_, ho, fun r => ?_⟩
    · unfold indexRange entriesAfter
      simp only [hin]
      exact hl
    · rw [hm]
      simp [IndexKey.key, indexKey]
  | some b =>
    obtain ⟨l, hl, ho, hm⟩ := exists_indexed h
      (fun k => decide (b < k) && inListRange prefix_ startKey k.key)
    refine ⟨l, ?_, ho, fun r => ?_⟩
    · unfold indexRange entriesAfter
      simp only [hin, List.filter_filter]
      exact hl
    · rw [hm, Bool.and_eq_true, decide_eq_true_eq]
      constructor
      · rintro ⟨h1, h2, h3⟩
        exact ⟨h1, h3, fun b' hb' => by cases hb'; exact h2⟩
      · rintro ⟨h1, h3, h2⟩
        exact ⟨h1, h2 b rfl, h3⟩

end KubeFdb
