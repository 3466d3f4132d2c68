import KubeFdb.Lib.SortedBy
import Mathlib.Data.Prod.Lex

/-!
# 鍵ごとに一つを選ぶ走査

(鍵, 順位) の昇順に並んだ列を一度だけ読み、鍵ごとに窓の中で順位が最大の要素を選ぶ。
選んだ要素は、生きていれば、鍵が変わったところで出力する。

走査の状態は、出力した列と、いまの鍵の候補である。候補には「同じ鍵でそれより順位の大きい要素を
まだ読んでいない」という印を付ける。

* `chosen` — 読んだ列から選ばれる要素。列に属するかどうかだけで決まる
* `finish_scan` — 最後まで読むと、出力は `chosen` に一致する
* `scan_concat` — 途中の状態
* `stopped` — 出力が `n` 個に達したところで止めたときに選ばれる要素
-/

namespace GroupScan

variable {α κ ρ : Type} [LinearOrder κ] [LinearOrder ρ]

structure State (α : Type) where
  emitted : List (α × Bool)
  candidate : Option (α × Bool)

section Defs

variable (key : α → κ) (rank : α → ρ) (window live : α → Bool)

/-- 鍵が変わったところで候補を出力する。 -/
def flush (s : State α) (k : κ) : State α :=
  match s.candidate with
  | none => s
  | some c =>
    if key c.1 = k then s else ⟨s.emitted ++ [c].filter (fun c => live c.1), none⟩

/-- 窓の中の要素は候補になる。窓の外の要素は候補の印を下ろす。 -/
def accept (s : State α) (a : α) : State α :=
  if window a then ⟨s.emitted, some (a, true)⟩
  else ⟨s.emitted, s.candidate.map (fun c => (c.1, false))⟩

def read (s : State α) (a : α) : State α := accept window (flush key live s (key a)) a

def scan (l : List α) : State α := l.foldl (read key window live) ⟨[], none⟩

/-- 読み終えたところで候補を出力する。 -/
def finish (s : State α) : List (α × Bool) :=
  s.emitted ++ s.candidate.toList.filter (fun c => live c.1)

/-- 同じ鍵でより順位の大きい要素がないこと。 -/
def isNewest (l : List α) (a : α) : Bool :=
  !l.any (fun b => decide (key b = key a) && decide (rank a < rank b))

/-- 選ばれる要素。 -/
def chosen (l : List α) : List α :=
  l.filter (fun a => window a && live a && isNewest key rank (l.filter window) a)

/-- 選ばれる要素に印を付けたもの。 -/
def picked (l : List α) : List (α × Bool) :=
  (chosen key rank window live l).map (fun a => (a, isNewest key rank l a))

/-- 一つの鍵の列の候補。 -/
def candidate (l : List α) : Option (α × Bool) :=
  (l.filter window).getLast?.map (fun a => (a, isNewest key rank l a))

/-- (鍵, 順位) の昇順。 -/
abbrev Ordered (l : List α) : Prop := SortedBy (fun a => toLex (key a, rank a)) l

end Defs

variable {key : α → κ} {rank : α → ρ} {window live : α → Bool} {l l' : List α} {a : α}

theorem isNewest_iff :
    isNewest key rank l a = true ↔ ∀ b ∈ l, key b = key a → rank b ≤ rank a := by
  simp [isNewest]

theorem mem_chosen : a ∈ chosen key rank window live l ↔
    a ∈ l ∧ window a = true ∧ live a = true ∧
      ∀ b ∈ l, window b = true → key b = key a → rank b ≤ rank a := by
  unfold chosen
  rw [List.mem_filter, Bool.and_eq_true, Bool.and_eq_true, isNewest_iff, and_assoc]
  simp only [List.mem_filter]
  exact and_congr_right fun _ => and_congr_right fun _ => and_congr_right fun _ =>
    ⟨fun h b hb hw => h b ⟨hb, hw⟩, fun h b hb => h b hb.1 hb.2⟩

theorem chosen_ordered (h : Ordered key rank l) : Ordered key rank (chosen key rank window live l) :=
  h.filter _

/-- 選ばれる列は、選ばれる要素だけで決まる。 -/
theorem chosen_ext (h : Ordered key rank l) (h' : Ordered key rank l')
    (hm : ∀ a, a ∈ chosen key rank window live l ↔ a ∈ chosen key rank window live l') :
    chosen key rank window live l = chosen key rank window live l' :=
  SortedBy.eq_of_mem_iff (chosen_ordered h) (chosen_ordered h') hm

/-- 選ばれる要素は鍵ごとに一つである。 -/
theorem chosen_sorted (h : Ordered key rank l) : SortedBy key (chosen key rank window live l) := by
  refine List.Pairwise.imp_of_mem ?_ (chosen_ordered h)
  intro a b ha hb hab
  rcases Prod.Lex.lt_iff.mp hab with hlt | ⟨he, hlt⟩
  · exact hlt
  · obtain ⟨-, -, -, hmax⟩ := mem_chosen.mp ha
    obtain ⟨hbm, hbw, -⟩ := mem_chosen.mp hb
    exact absurd (hmax b hbm hbw he.symm) (not_le.mpr hlt)

theorem picked_sorted (h : Ordered key rank l) :
    SortedBy (fun c : α × Bool => key c.1) (picked key rank window live l) :=
  SortedBy.map_iff.mpr (chosen_sorted h)

theorem mem_picked {c : α × Bool} (hc : c ∈ picked key rank window live l) :
    c.1 ∈ chosen key rank window live l ∧ c.2 = isNewest key rank l c.1 := by
  obtain ⟨a, ha, rfl⟩ := List.mem_map.mp hc
  exact ⟨ha, rfl⟩

theorem picked_fst : (picked key rank window live l).map Prod.fst = chosen key rank window live l := by
  unfold picked
  rw [List.map_map]
  exact List.map_id'' (fun _ => rfl) _

/-- 鍵の条件で絞っても、残った鍵から選ばれる要素は変わらない。 -/
theorem chosen_filter_key (q : κ → Bool) :
    chosen key rank window live (l.filter (fun a => q (key a)))
      = (chosen key rank window live l).filter (fun a => q (key a)) := by
  unfold chosen
  simp only [List.filter_filter]
  refine List.filter_congr fun a _ => ?_
  cases hq : q (key a) with
  | false => simp
  | true =>
    have hn : isNewest key rank (l.filter fun b => window b && q (key b)) a
        = isNewest key rank (l.filter window) a := by
      rw [Bool.eq_iff_iff, isNewest_iff, isNewest_iff]
      refine ⟨fun hn b hb hk => hn b ?_ hk, fun hn b hb hk => hn b ?_ hk⟩
      · -- 同じ鍵の要素は条件を満たす
        obtain ⟨hb, hw⟩ := List.mem_filter.mp hb
        exact List.mem_filter.mpr ⟨hb, by rw [hw, hk, hq]; rfl⟩
      · obtain ⟨hb, hw⟩ := List.mem_filter.mp hb
        exact List.mem_filter.mpr ⟨hb, (Bool.and_eq_true_iff.mp hw).1⟩
    rw [hn, Bool.and_true, Bool.true_and]

/-- 鍵、順位、窓、生死を変えない写像は、選ばれる要素を変えない。 -/
theorem chosen_map (f : α → α) (hk : ∀ a, key (f a) = key a) (hr : ∀ a, rank (f a) = rank a)
    (hw : ∀ a, window (f a) = window a) (hl : ∀ a, live (f a) = live a) :
    chosen key rank window live (l.map f) = (chosen key rank window live l).map f := by
  unfold chosen
  rw [List.filter_map]
  refine congrArg _ (List.filter_congr fun a _ => ?_)
  simp only [Function.comp, hw, hl]
  refine congrArg _ (Bool.eq_iff_iff.mpr ?_)
  simp [isNewest_iff, hk, hr, hw]

/-- 列の要素について同じ窓は、同じ要素を選ぶ。 -/
theorem chosen_window_congr {window' : α → Bool} (h : ∀ b ∈ l, window b = window' b) :
    chosen key rank window live l = chosen key rank window' live l := by
  unfold chosen
  rw [List.filter_congr h]
  exact List.filter_congr fun b hb => by rw [h b hb]

theorem chosen_singleton (b : α) :
    chosen key rank window live [b] = [b].filter (fun a => window a && live a) := by
  unfold chosen
  refine List.filter_congr fun a ha => ?_
  have hn : isNewest key rank ([b].filter window) a = true :=
    isNewest_iff.mpr fun x hx _ => by
      rw [List.mem_singleton.mp ha, List.mem_singleton.mp (List.mem_of_mem_filter hx)]
  rw [hn, Bool.and_true]

/-! ## 鍵の異なる二つの列 -/

theorem isNewest_append_left (h : ∀ b ∈ l', key b ≠ key a) :
    isNewest key rank (l ++ l') a = isNewest key rank l a := by
  rw [Bool.eq_iff_iff, isNewest_iff, isNewest_iff]
  refine ⟨fun hn b hb => hn b (List.mem_append_left _ hb), fun hn b hb hk => ?_⟩
  rcases List.mem_append.mp hb with hb | hb
  · exact hn b hb hk
  · exact absurd hk (h b hb)

theorem isNewest_append_right (h : ∀ b ∈ l, key b ≠ key a) :
    isNewest key rank (l ++ l') a = isNewest key rank l' a := by
  rw [Bool.eq_iff_iff, isNewest_iff, isNewest_iff]
  refine ⟨fun hn b hb => hn b (List.mem_append_right _ hb), fun hn b hb hk => ?_⟩
  rcases List.mem_append.mp hb with hb | hb
  · exact absurd hk (h b hb)
  · exact hn b hb hk

theorem chosen_append (h : ∀ a ∈ l, ∀ b ∈ l', key a ≠ key b) :
    chosen key rank window live (l ++ l')
      = chosen key rank window live l ++ chosen key rank window live l' := by
  unfold chosen
  rw [List.filter_append, List.filter_append]
  refine congrArg₂ (· ++ ·) (List.filter_congr fun a ha => ?_) (List.filter_congr fun b hb => ?_)
  · rw [isNewest_append_left (fun b hb => (h a ha b (List.mem_of_mem_filter hb)).symm)]
  · rw [isNewest_append_right (fun a ha => h a (List.mem_of_mem_filter ha) b hb)]

theorem picked_append (h : ∀ a ∈ l, ∀ b ∈ l', key a ≠ key b) :
    picked key rank window live (l ++ l')
      = picked key rank window live l ++ picked key rank window live l' := by
  have hl : ∀ a ∈ l, ∀ b ∈ l', key b ≠ key a := fun a ha b hb => (h a ha b hb).symm
  unfold picked
  rw [chosen_append h, List.map_append]
  refine congrArg₂ (· ++ ·) (List.map_congr_left fun a ha => ?_)
    (List.map_congr_left fun b hb => ?_)
  · rw [isNewest_append_left (hl a (mem_chosen.mp ha).1)]
  · rw [isNewest_append_right (fun a ha => h a ha b (mem_chosen.mp hb).1)]

/-! ## 一つの鍵の列 -/

section Group

variable {k : κ}

theorem sorted_of_group (h : Ordered key rank l) (hk : ∀ a ∈ l, key a = k) : SortedBy rank l := by
  refine List.Pairwise.imp_of_mem ?_ h
  intro a b ha hb hab
  rcases Prod.Lex.lt_iff.mp hab with hlt | ⟨-, hlt⟩
  · exact absurd hlt (by simp [hk a ha, hk b hb])
  · exact hlt

/-- 一つの鍵の列から選ばれるのは、生きている候補である。 -/
theorem picked_group (h : Ordered key rank l) (hk : ∀ a ∈ l, key a = k) :
    picked key rank window live l
      = (candidate key rank window l).toList.filter (fun c => live c.1) := by
  have hs := sorted_of_group h hk
  have hf := hs.filter window
  unfold picked candidate
  cases hl : (l.filter window).getLast? with
  | none =>
    have hnil := List.getLast?_eq_none_iff.mp hl
    have hempty : chosen key rank window live l = [] := by
      refine List.eq_nil_iff_forall_not_mem.mpr (fun a ha => ?_)
      obtain ⟨hm, hw, -⟩ := mem_chosen.mp ha
      have : a ∈ l.filter window := List.mem_filter.mpr ⟨hm, hw⟩
      rw [hnil] at this
      exact absurd this List.not_mem_nil
    rw [hempty]
    rfl
  | some c =>
    obtain ⟨hc, hmax⟩ := hf.getLast?_eq_some_iff.mp hl
    obtain ⟨hcl, hcw⟩ := List.mem_filter.mp hc
    have hmem : ∀ a, a ∈ chosen key rank window live l ↔ a ∈ [c].filter live := by
      intro a
      rw [mem_chosen, List.mem_filter, List.mem_singleton]
      constructor
      · rintro ⟨ha, hw, hlive, hn⟩
        refine ⟨hs.eq_of_index_eq ha hcl (le_antisymm ?_ ?_), hlive⟩
        · exact hmax a (List.mem_filter.mpr ⟨ha, hw⟩)
        · exact hn c hcl hcw ((hk c hcl).trans (hk a ha).symm)
      · rintro ⟨rfl, hlive⟩
        exact ⟨hcl, hcw, hlive, fun b hb hw _ => hmax b (List.mem_filter.mpr ⟨hb, hw⟩)⟩
    have heq : chosen key rank window live l = [c].filter live :=
      SortedBy.eq_of_mem_iff (hs.filter _) ((SortedBy.singleton c).filter _) hmem
    rw [heq]
    cases hlive : live c with
    | true => simp [hlive]
    | false => simp [hlive]

/-- 同じ鍵の要素を一つ読んだときの候補。 -/
theorem candidate_concat (hk : ∀ b ∈ l, key b = key a) (hr : ∀ b ∈ l, rank b < rank a) :
    candidate key rank window (l ++ [a]) =
      if window a then some (a, true)
      else (candidate key rank window l).map (fun c => (c.1, false)) := by
  unfold candidate
  cases hw : window a with
  | true =>
    have hn : isNewest key rank (l ++ [a]) a = true := by
      rw [isNewest_iff]
      intro b hb _
      rcases List.mem_append.mp hb with hb | hb
      · exact (hr b hb).le
      · rw [List.mem_singleton.mp hb]
    rw [List.filter_append, List.filter_cons_of_pos hw, List.filter_nil, List.getLast?_concat,
      Option.map_some, hn]
    rfl
  | false =>
    rw [List.filter_append, List.filter_cons_of_neg (by simp [hw]), List.filter_nil,
      List.append_nil, if_neg (by decide), Option.map_map]
    cases hl : (l.filter window).getLast? with
    | none => rfl
    | some c =>
      have hc : c ∈ l := List.mem_of_mem_filter (List.mem_of_getLast? hl)
      have hn : isNewest key rank (l ++ [a]) c = false := by
        rw [← Bool.not_eq_true, isNewest_iff]
        intro hall
        exact absurd (hall a (by simp) (hk c hc).symm) (not_le.mpr (hr c hc))
      simp [hn]

end Group

/-! ## 走査 -/

theorem scan_append (l l' : List α) : scan key window live (l ++ l')
    = l'.foldl (read key window live) (scan key window live l) := by
  unfold scan
  rw [List.foldl_append]

theorem scan_concat_eq (l : List α) (a : α) : scan key window live (l ++ [a])
    = accept window (flush key live (scan key window live l) (key a)) a := by
  rw [scan_append]
  rfl

/-- 鍵 `k` まで読んだ列は、鍵が `k` より小さい部分と `k` の部分に分かれる。 -/
theorem filter_lt_append_filter_eq {k : κ} (h : Ordered key rank l) (hk : ∀ b ∈ l, key b ≤ k) :
    l.filter (fun b => decide (key b < k)) ++ l.filter (fun b => decide (key b = k)) = l := by
  induction l with
  | nil => rfl
  | cons b t ih =>
    have ht := ih h.tail (fun c hc => hk c (List.mem_cons_of_mem _ hc))
    rcases lt_or_eq_of_le (hk b List.mem_cons_self) with hlt | heq
    · rw [List.filter_cons_of_pos (by simpa using hlt),
        List.filter_cons_of_neg (by simpa using hlt.ne), List.cons_append, ht]
    · -- 鍵が `k` になった後は、列の残りもすべて鍵が `k` である
      have hnil : t.filter (fun c => decide (key c < k)) = [] := by
        refine List.filter_eq_nil_iff.mpr (fun c hc => ?_)
        have hle : key b ≤ key c := by
          rcases Prod.Lex.lt_iff.mp (h.lt_of_mem hc) with hlt | ⟨he, -⟩
          · exact hlt.le
          · exact he.le
        simpa using heq ▸ hle
      rw [hnil, List.nil_append] at ht
      rw [List.filter_cons_of_neg (by simp [heq]), List.filter_cons_of_pos (by simpa using heq),
        hnil, List.nil_append, ht]

theorem flush_of_eq {s : State α} {k : κ} (h : ∀ c ∈ s.candidate, key c.1 = k) :
    flush key live s k = s := by
  unfold flush
  split
  · rfl
  · next c hc => rw [if_pos (h c hc)]

theorem flush_of_ne {s : State α} {k : κ} (h : ∀ c ∈ s.candidate, key c.1 ≠ k) :
    flush key live s k = ⟨finish live s, none⟩ := by
  obtain ⟨e, o⟩ := s
  cases o with
  | none => simp [flush, finish]
  | some c =>
    unfold flush
    simp only
    rw [if_neg (h c rfl)]
    rfl

/-- 鍵 `k` を読む直前に残る候補は、`k` のものである。 -/
theorem flush_candidate_key {s : State α} {k : κ} :
    ∀ c ∈ (flush key live s k).candidate, key c.1 = k := by
  intro c hc
  unfold flush at hc
  split at hc
  · next hn => rw [hn] at hc; cases hc
  · next x hx =>
    split at hc
    · next hk => rw [hx] at hc; cases hc; exact hk
    · cases hc

theorem candidate_key {k : κ} (hk : ∀ a ∈ l, key a = k) :
    ∀ c ∈ candidate key rank window l, key c.1 = k := by
  intro c hc
  obtain ⟨a, ha, rfl⟩ := Option.map_eq_some_iff.mp hc
  exact hk a (List.mem_of_mem_filter (List.mem_of_getLast? ha))

theorem key_le_of_concat (h : Ordered key rank (l ++ [a])) : ∀ b ∈ l, key b ≤ key a := by
  intro b hb
  rcases Prod.Lex.lt_iff.mp ((SortedBy.append_iff.mp h).2.2 b hb a (by simp)) with hlt | ⟨he, -⟩
  · exact hlt.le
  · exact he.le

/-- 最後の鍵より前の部分から選ばれたものに、最後の鍵の候補を足すと、全体から選ばれたものになる。 -/
theorem picked_append_group {k : κ} (h : Ordered key rank l) (hk : ∀ b ∈ l, key b ≤ k) :
    picked key rank window live (l.filter (fun b => decide (key b < k)))
        ++ (candidate key rank window (l.filter (fun b => decide (key b = k)))).toList.filter
          (fun c => live c.1)
      = picked key rank window live l := by
  have hg : ∀ b ∈ l.filter (fun b => decide (key b = k)), key b = k :=
    fun b hb => of_decide_eq_true (List.mem_filter.mp hb).2
  rw [← picked_group (h.filter _) hg, ← picked_append, filter_lt_append_filter_eq h hk]
  intro b hb c hc
  rw [hg c hc]
  exact (of_decide_eq_true (List.mem_filter.mp hb).2 : key b < k).ne

theorem key_le_of_mem_concat (h : Ordered key rank (l ++ [a])) : ∀ b ∈ l ++ [a], key b ≤ key a := by
  intro b hb
  rcases List.mem_append.mp hb with hb | hb
  · exact key_le_of_concat h b hb
  · rw [List.mem_singleton.mp hb]

/-- 鍵 `k` まで読んだところの状態。`k` より前の鍵は出力し終え、`k` の候補を持つ。 -/
def stateAt (key : α → κ) (rank : α → ρ) (window live : α → Bool) (l : List α) (k : κ) : State α :=
  ⟨picked key rank window live (l.filter (fun b => decide (key b < k))),
    candidate key rank window (l.filter (fun b => decide (key b = k)))⟩

theorem stateAt_key {k : κ} :
    ∀ c ∈ (stateAt key rank window live l k).candidate, key c.1 = k :=
  candidate_key (fun _ hb => of_decide_eq_true (List.mem_filter.mp hb).2)

theorem finish_stateAt {k : κ} (h : Ordered key rank l) (hk : ∀ b ∈ l, key b ≤ k) :
    finish live (stateAt key rank window live l k) = picked key rank window live l :=
  picked_append_group h hk

/-- 鍵 `key a` の途中で `a` を読む。 -/
theorem accept_stateAt (h : Ordered key rank (l ++ [a])) :
    accept window (stateAt key rank window live l (key a)) a
      = stateAt key rank window live (l ++ [a]) (key a) := by
  have hgk : ∀ b ∈ l.filter (fun b => decide (key b = key a)), key b = key a :=
    fun b hb => of_decide_eq_true (List.mem_filter.mp hb).2
  have hgr : ∀ b ∈ l.filter (fun b => decide (key b = key a)), rank b < rank a := by
    intro b hb
    have hlt := (SortedBy.append_iff.mp h).2.2 b (List.mem_of_mem_filter hb) a (by simp)
    rcases Prod.Lex.lt_iff.mp hlt with hlt | ⟨-, hlt⟩
    · exact absurd (hgk b hb) hlt.ne
    · exact hlt
  unfold stateAt
  rw [List.filter_append, List.filter_append, List.filter_cons_of_neg (by simp),
    List.filter_cons_of_pos (by simp), List.filter_nil, List.filter_nil, List.append_nil,
    candidate_concat hgk hgr]
  unfold accept
  split <;> rfl

/-- 鍵 `k` の要素を読む直前の状態。 -/
theorem flush_scan {l : List α} (h : Ordered key rank l) {k : κ} (hk : ∀ b ∈ l, key b ≤ k) :
    flush key live (scan key window live l) k = stateAt key rank window live l k := by
  induction l using List.reverseRecOn generalizing k with
  | nil => rfl
  | append_singleton l a ih =>
    have hall := key_le_of_mem_concat h
    rw [scan_concat_eq, ih (SortedBy.append_iff.mp h).1 (key_le_of_concat h), accept_stateAt h]
    rcases lt_or_eq_of_le (hk a (by simp)) with hlt | rfl
    · -- 鍵が変わるので、最後の鍵の候補が出力される
      rw [flush_of_ne (fun c hc => (stateAt_key c hc).trans_ne hlt.ne), finish_stateAt h hall]
      unfold stateAt
      rw [List.filter_eq_self.mpr (fun b hb => decide_eq_true ((hall b hb).trans_lt hlt)),
        List.filter_eq_nil_iff.mpr (fun b hb => by simpa using ((hall b hb).trans_lt hlt).ne)]
      rfl
    · exact flush_of_eq stateAt_key

/-- 要素を一つ読んだ後の状態。 -/
theorem scan_concat (h : Ordered key rank (l ++ [a])) :
    scan key window live (l ++ [a]) = stateAt key rank window live (l ++ [a]) (key a) := by
  rw [scan_concat_eq, flush_scan (SortedBy.append_iff.mp h).1 (key_le_of_concat h), accept_stateAt h]

/-- 最後の鍵で、窓の中の最新の要素が候補になる。 -/
theorem candidate_scan (h : Ordered key rank l) {b : α} (hl : l.getLast? = some b) (ha : a ∈ l)
    (hw : window a = true) (hk : key a = key b)
    (hmax : ∀ x ∈ l, window x = true → key x = key a → rank x ≤ rank a) :
    ∃ f, (scan key window live l).candidate = some (a, f) := by
  obtain ⟨t, rfl⟩ := List.getLast?_eq_some_iff.mp hl
  have hg : ∀ x ∈ (t ++ [b]).filter (fun x => decide (key x = key b)), key x = key b :=
    fun x hx => of_decide_eq_true (List.mem_filter.mp hx).2
  have hs := (sorted_of_group (h.filter _) hg).filter window
  rw [scan_concat h]
  unfold stateAt candidate
  rw [(hs.getLast?_eq_some_iff (a := a)).mpr]
  · exact ⟨_, rfl⟩
  · refine ⟨List.mem_filter.mpr ⟨List.mem_filter.mpr ⟨ha, decide_eq_true hk⟩, hw⟩, fun x hx => ?_⟩
    obtain ⟨hx, hxw⟩ := List.mem_filter.mp hx
    exact hmax x (List.mem_of_mem_filter hx) hxw ((hg x hx).trans hk.symm)

/-- 一度出力したものは変わらない。 -/
theorem emitted_isPrefix_read (s : State α) (a : α) :
    s.emitted <+: (read key window live s a).emitted := by
  have hflush : s.emitted <+: (flush key live s (key a)).emitted := by
    unfold flush
    split
    · exact List.prefix_rfl
    · split
      · exact List.prefix_rfl
      · exact List.prefix_append _ _
  unfold read accept
  split
  · exact hflush
  · exact hflush

theorem emitted_isPrefix_scan (l l' : List α) :
    (scan key window live l).emitted <+: (scan key window live (l ++ l')).emitted := by
  rw [scan_append]
  generalize scan key window live l = s
  induction l' generalizing s with
  | nil => exact List.prefix_rfl
  | cons a l' ih => exact (emitted_isPrefix_read s a).trans (ih _)

/-- 読み終えた鍵の要素。最後の鍵の要素を除いたもの。 -/
def closed (key : α → κ) (l : List α) : List α :=
  match l.getLast? with
  | none => []
  | some a => l.filter (fun b => decide (key b < key a))

theorem mem_closed {b : α} :
    b ∈ closed key l ↔ b ∈ l ∧ ∃ a, l.getLast? = some a ∧ key b < key a := by
  unfold closed
  cases hl : l.getLast? with
  | none => simp
  | some a => simp

theorem closed_ordered (h : Ordered key rank l) : Ordered key rank (closed key l) := by
  unfold closed
  split
  · exact SortedBy.nil
  · exact h.filter _

/-- 途中までに出力されるのは、読み終えた鍵から選ばれるものである。 -/
theorem emitted_scan (h : Ordered key rank l) :
    (scan key window live l).emitted = picked key rank window live (closed key l) := by
  cases l using List.reverseRecOn with
  | nil => rfl
  | append_singleton l a =>
    rw [scan_concat h]
    unfold closed
    rw [List.getLast?_concat]
    rfl

/-- `i` 番目の要素を読んだところで出力されているのは、その鍵より前の鍵から選ばれるものである。 -/
theorem emitted_take (h : Ordered key rank l) {i : Nat} (ha : l[i]? = some a) :
    (scan key window live (l.take (i + 1))).emitted.map Prod.fst
      = (chosen key rank window live l).filter (fun b => decide (key b < key a)) := by
  have htake : l.take (i + 1) = l.take i ++ [a] := by rw [List.take_add_one, ha]; rfl
  have hord : Ordered key rank (l.take i ++ [a]) := htake ▸ h.sublist (List.take_sublist _ l)
  rw [htake, scan_concat hord, ← chosen_filter_key fun k => decide (k < key a)]
  show (picked key rank window live _).map Prod.fst = _
  rw [picked_fst, ← htake]
  -- 残りの要素の鍵は小さくない
  have hdrop : (l.drop (i + 1)).filter (fun b => decide (key b < key a)) = [] := by
    refine List.filter_eq_nil_iff.mpr fun b hb => ?_
    have hsplit := h
    rw [← List.take_append_drop (i + 1) l] at hsplit
    have hlt := (SortedBy.append_iff.mp hsplit).2.2 a (by rw [htake]; simp) b hb
    rcases Prod.Lex.lt_iff.mp hlt with hlt | ⟨he, -⟩
    · simpa using hlt.le
    · simpa using he.le
  conv_rhs => rw [← List.take_append_drop (i + 1) l, List.filter_append, hdrop, List.append_nil]

/-- 最後まで読むと、選ばれる要素がすべて出力される。 -/
theorem finish_scan (h : Ordered key rank l) :
    finish live (scan key window live l) = picked key rank window live l := by
  cases l using List.reverseRecOn with
  | nil => rfl
  | append_singleton l a =>
    rw [scan_concat h, finish_stateAt h (key_le_of_mem_concat h)]

/-! ## 途中で止める走査 -/

/-- 鍵 `k` より前の鍵から選ばれる要素の数。 -/
def below (key : α → κ) (rank : α → ρ) (window live : α → Bool) (l : List α) (k : κ) : Nat :=
  ((chosen key rank window live l).filter (fun b => decide (key b < k))).length

theorem below_mono {k k' : κ} (h : k ≤ k') :
    below key rank window live l k ≤ below key rank window live l k' := by
  refine (List.monotone_filter_right _ fun b hb => ?_).length_le
  simp only [decide_eq_true_eq] at hb ⊢
  exact hb.trans_le h

theorem length_emitted_take (h : Ordered key rank l) {i : Nat} (ha : l[i]? = some a) :
    (scan key window live (l.take (i + 1))).emitted.length
      = below key rank window live l (key a) := by
  unfold below
  rw [← emitted_take h ha, List.length_map]

/-- 出力が `n` 個に達しないまま読み終えれば、どの鍵より前にも `n` 個はない。 -/
theorem below_lt_of_read {n : Nat} (h : Ordered key rank l)
    (hlt : ∀ j < l.length + 1, (scan key window live (l.take j)).emitted.length < n) :
    ∀ x ∈ l, below key rank window live l (key x) < n := by
  intro x hx
  obtain ⟨i, hi, rfl⟩ := List.mem_iff_getElem.mp hx
  rw [← length_emitted_take h (List.getElem?_eq_getElem hi)]
  exact hlt (i + 1) (Nat.succ_lt_succ hi)

/-- 出力が `n` 個に達したところで止めると、最後に読んだ要素は、前の鍵から `n` 個が選ばれる最初の
要素である。 -/
theorem exists_stop {n m : Nat} (hn : 0 < n) (h : Ordered key rank l)
    (hm : n ≤ (scan key window live (l.take m)).emitted.length)
    (hlt : ∀ j < m, (scan key window live (l.take j)).emitted.length < n) :
    ∃ b read, l.take m = read ++ [b] ∧ n ≤ below key rank window live l (key b) ∧
      ∀ x ∈ read, below key rank window live l (key x) < n := by
  obtain ⟨i, rfl⟩ : ∃ i, m = i + 1 := by
    refine Nat.exists_eq_succ_of_ne_zero fun h0 => ?_
    rw [h0] at hm
    exact absurd hm (not_le.mpr hn)
  have hi : i < l.length := by
    by_contra hge
    have htake : l.take (i + 1) = l.take i := by
      rw [List.take_of_length_le (by omega), List.take_of_length_le (by omega)]
    rw [htake] at hm
    exact absurd hm (not_le.mpr (hlt i (Nat.lt_succ_self i)))
  refine ⟨l[i], l.take i, by rw [List.take_add_one, List.getElem?_eq_getElem hi]; rfl, ?_, ?_⟩
  · rw [← length_emitted_take h (List.getElem?_eq_getElem hi)]
    exact hm
  · intro x hx
    obtain ⟨j, hj, rfl⟩ := List.mem_iff_getElem.mp hx
    rw [List.length_take, lt_min_iff] at hj
    rw [List.getElem_take, ← length_emitted_take h (List.getElem?_eq_getElem hj.2)]
    exact hlt (j + 1) (Nat.succ_lt_succ hj.1)

/-- 候補が出力されて `n` 個に達したなら、ちょうど `n` 個で、候補は残らない。 -/
theorem flush_of_reaches {s : State α} {k : κ} {n : Nat} (hlt : s.emitted.length < n)
    (hle : n ≤ (flush key live s k).emitted.length) :
    (flush key live s k).emitted.length = n ∧ (flush key live s k).candidate = none := by
  unfold flush at hle ⊢
  split at hle
  · exact absurd hle (not_le.mpr hlt)
  · next c hc =>
    split at hle
    · exact absurd hle (not_le.mpr hlt)
    · next hk =>
      rw [if_neg hk]
      have hone := List.length_filter_le (fun c : α × Bool => live c.1) [c]
      rw [List.length_singleton] at hone
      rw [List.length_append] at hle ⊢
      exact ⟨by omega, rfl⟩

/-- 出力が `n` 個に達したところで止めると、最後に読んだ要素も、窓の中で生きていれば出力される。 -/
theorem length_picked_stop {n m : Nat} (h : Ordered key rank l)
    (hm : n ≤ (scan key window live (l.take m)).emitted.length)
    (hlt : ∀ j < m, (scan key window live (l.take j)).emitted.length < n) {b : α} {read : List α}
    (htake : l.take m = read ++ [b]) :
    (picked key rank window live (l.take m)).length = n + if window b && live b then 1 else 0 := by
  have hread : read = l.take read.length :=
    List.prefix_iff_eq_take.mp
      ((htake ▸ List.prefix_append read [b] : read <+: l.take m).trans (List.take_prefix m l))
  have hlen : read.length < m := by
    have hle := List.length_take_le m l
    rw [htake, List.length_append, List.length_singleton] at hle
    omega
  have hbefore : (scan key window live read).emitted.length < n := hread ▸ hlt read.length hlen
  rw [← finish_scan (h.sublist (List.take_sublist m l)), htake, scan_concat_eq]
  rw [htake, scan_concat_eq] at hm
  have hem : ∀ s : State α, (accept window s b).emitted = s.emitted := fun s => by
    unfold accept
    split <;> rfl
  rw [hem] at hm
  obtain ⟨hn, hnone⟩ := flush_of_reaches hbefore hm
  unfold finish
  rw [List.length_append, hem, hn]
  unfold accept
  rw [hnone]
  cases window b with
  | false => rfl
  | true => cases hl : live b <;> simp [hl]

/-- 出力が `n` 個に達しないまま読み終えれば、選ばれるのは `n` 個までである。 -/
theorem length_picked_of_read {n : Nat} (h : Ordered key rank l)
    (hlt : (scan key window live l).emitted.length < n) :
    (picked key rank window live l).length ≤ n := by
  rw [← finish_scan h, finish, List.length_append]
  have hone : ((scan key window live l).candidate.toList.filter (fun c => live c.1)).length ≤ 1 :=
    (List.length_filter_le _ _).trans Option.length_toList_le
  omega

/-- 出力が `n` 個に達したところで止める走査が選ぶ要素。前の鍵から選ばれるものが `n` 個に満たない要素と、そうでない最初の
要素である。後者は、窓の中で生きていれば、同じ鍵の残りを読まないまま選ばれる。 -/
def stopped (key : α → κ) (rank : α → ρ) (window live : α → Bool) (n : Nat) (l : List α) : List α :=
  (chosen key rank window live l).filter
      (fun a => decide (below key rank window live l (key a) < n)) ++
    ((l.find? (fun a => decide (n ≤ below key rank window live l (key a)))).filter
      (fun a => window a && live a)).toList

theorem stopped_window_congr {window' : α → Bool} (h : ∀ b ∈ l, window b = window' b) (n : Nat) :
    stopped key rank window live n l = stopped key rank window' live n l := by
  have hbelow : below key rank window live l = below key rank window' live l := by
    funext k
    rw [below, below, chosen_window_congr h]
  unfold stopped
  rw [hbelow, chosen_window_congr h]
  refine congrArg₂ (· ++ ·) rfl (congrArg Option.toList ?_)
  cases hf : l.find? (fun a => decide (n ≤ below key rank window' live l (key a))) with
  | none => rfl
  | some b => rw [Option.filter, Option.filter, h b (List.mem_of_find?_eq_some hf)]

/-- 鍵、順位、窓、生死を変えない写像は、止めた走査が選ぶ要素も変えない。 -/
theorem stopped_map (f : α → α) (hk : ∀ a, key (f a) = key a) (hr : ∀ a, rank (f a) = rank a)
    (hw : ∀ a, window (f a) = window a) (hl : ∀ a, live (f a) = live a) (n : Nat) :
    stopped key rank window live n (l.map f) = (stopped key rank window live n l).map f := by
  have hbelow : below key rank window live (l.map f) = below key rank window live l := by
    funext k
    rw [below, chosen_map f hk hr hw hl, List.filter_map, List.length_map]
    simp only [Function.comp_def, hk]
    rfl
  unfold stopped
  rw [hbelow, chosen_map f hk hr hw hl, List.filter_map, List.find?_map, List.map_append]
  simp only [Function.comp_def, hk]
  refine congrArg₂ (· ++ ·) rfl ?_
  cases l.find? (fun a => decide (n ≤ below key rank window live l (key a))) with
  | none => rfl
  | some b =>
    rw [Option.map_some, Option.filter, Option.filter, hw, hl]
    split <;> rfl

/-- 出力が `n` 個に達しないまま読み終えた走査。 -/
theorem chosen_eq_stopped_of_read {n : Nat} (h : Ordered key rank l)
    (hlt : ∀ j < l.length + 1, (scan key window live (l.take j)).emitted.length < n) :
    chosen key rank window live l = stopped key rank window live n l := by
  have hbelow := below_lt_of_read h hlt
  unfold stopped
  rw [List.filter_eq_self.mpr fun b hb => decide_eq_true (hbelow b (mem_chosen.mp hb).1),
    List.find?_eq_none.mpr fun b hb => by simpa using hbelow b hb]
  exact (List.append_nil _).symm

/-- 順に並ぶ列で、鍵が `b` より小さい要素は `b` の前に並ぶ。 -/
theorem filter_key_lt {read rest : List α} {b : α} (h : Ordered key rank (read ++ b :: rest))
    (hread : ∀ x ∈ read, key x < key b) :
    (read ++ b :: rest).filter (fun x => decide (key x < key b)) = read := by
  obtain ⟨-, hrest, -⟩ := SortedBy.append_iff.mp h
  have hnot : ∀ x ∈ b :: rest, ¬ key x < key b := by
    intro x hx
    rcases List.mem_cons.mp hx with rfl | hx
    · exact lt_irrefl _
    · rcases Prod.Lex.lt_iff.mp (hrest.lt_of_mem hx) with hlt | ⟨he, -⟩
      · exact not_lt.mpr hlt.le
      · exact not_lt.mpr he.le
  rw [List.filter_append, List.filter_eq_self.mpr fun x hx => decide_eq_true (hread x hx),
    List.filter_eq_nil_iff.mpr fun x hx => by simpa using hnot x hx, List.append_nil]

/-- 出力が `n` 個に達したところで止めた走査。 -/
theorem chosen_take_eq_stopped {n m : Nat} (hn : 0 < n) (h : Ordered key rank l)
    (hm : n ≤ (scan key window live (l.take m)).emitted.length)
    (hlt : ∀ j < m, (scan key window live (l.take j)).emitted.length < n) :
    chosen key rank window live (l.take m) = stopped key rank window live n l := by
  obtain ⟨b, read, htake, hb, hread⟩ := exists_stop hn h hm hlt
  have hsplit : l = read ++ b :: l.drop m := by
    rw [List.append_cons, ← htake, List.take_append_drop]
  have hlt_b : ∀ x, below key rank window live l (key x) < n → key x < key b := by
    intro x hx
    by_contra hge
    exact absurd (hb.trans (below_mono (not_lt.mp hge))) (not_le.mpr hx)
  -- `b` の前に読んだ要素は、鍵が `b` より小さい要素のすべてである
  have hread_eq : l.filter (fun x => decide (key x < key b)) = read := by
    conv_lhs => rw [hsplit]
    exact filter_key_lt (hsplit ▸ h) fun x hx => hlt_b x (hread x hx)
  have hfind : l.find? (fun a => decide (n ≤ below key rank window live l (key a))) = some b :=
    List.find?_eq_some_iff_append.mpr ⟨decide_eq_true hb, read, l.drop m, hsplit, fun x hx => by
      simpa using hread x hx⟩
  have hfilter : (chosen key rank window live l).filter
      (fun a => decide (below key rank window live l (key a) < n))
        = chosen key rank window live read := by
    rw [← hread_eq, chosen_filter_key fun k => decide (k < key b)]
    refine List.filter_congr fun x hx => decide_eq_decide.mpr ⟨hlt_b x, fun hk => hread x ?_⟩
    rw [← hread_eq]
    exact List.mem_filter.mpr ⟨(mem_chosen.mp hx).1, decide_eq_true hk⟩
  unfold stopped
  rw [hfilter, hfind, htake, chosen_append fun x hx y hy => ?_, chosen_singleton]
  · rw [Option.filter]
    cases hw : window b && live b <;> simp [hw]
  · rw [List.mem_singleton.mp hy]
    exact (hlt_b x (hread x hx)).ne

theorem mem_of_mem_stopped {n : Nat} (ha : a ∈ stopped key rank window live n l) : a ∈ l := by
  rcases List.mem_append.mp ha with ha | ha
  · exact (mem_chosen.mp (List.mem_of_mem_filter ha)).1
  · exact List.mem_of_find?_eq_some (Option.filter_eq_some_iff.mp (Option.mem_toList.mp ha)).1

/-- 止めた走査が選ぶ要素。 -/
theorem mem_stopped {n : Nat} (h : Ordered key rank l) :
    a ∈ stopped key rank window live n l →
      below key rank window live l (key a) < n ∨
        ∀ x ∈ l, n ≤ below key rank window live l (key x) →
          toLex (key a, rank a) ≤ toLex (key x, rank x) := by
  intro ha
  rcases List.mem_append.mp ha with ha | ha
  · exact Or.inl (of_decide_eq_true (List.mem_filter.mp ha).2)
  · obtain ⟨hfind, -⟩ := Option.filter_eq_some_iff.mp (Option.mem_toList.mp ha)
    obtain ⟨-, pre, post, rfl, hpre⟩ := List.find?_eq_some_iff_append.mp hfind
    refine Or.inr fun x hx hge => ?_
    rcases List.mem_append.mp hx with hx | hx
    · exact absurd (decide_eq_true hge) (by simpa using hpre x hx)
    · rcases List.mem_cons.mp hx with rfl | hx
      · exact le_rfl
      · exact ((SortedBy.append_iff.mp h).2.1.lt_of_mem hx).le

end GroupScan
