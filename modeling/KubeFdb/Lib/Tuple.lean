import Mathlib.Data.List.Lex
import Mathlib.Tactic

/-!
# tuple layer の byte 表現

FoundationDB の tuple layer のうち、文字列の符号化と prefix の範囲を扱う。

* 文字列は `02`、中身、`00` の順に並ぶ。中身の `00` は `00 FF` に置き換わる（`escape`）。
* `strinc` は、与えた byte 列を prefix に持つ鍵すべてより大きい最小の鍵を返す。

範囲の端点と、文字列で始まる鍵 `packString k ++ x` の大小は `k` だけで決まる。
`x` は次の要素の符号で、先頭の byte は型の番号だから `FF` にならない。
これを端点の形ごとに述べるのが `append_lt_packString_iff`、`append_lt_strinc_iff`、
`append_lt_prefixEnd_iff`、`append_mem_sub_iff` である。

文字列の符号を prefix とする範囲（`PrefixRange`）には、その文字列に `00` を足して始まる文字列の鍵も入る
（`append_mem_prefixRange_iff`）。
-/

namespace Tuple

abbrev Byte := Fin 256

instance instNeZeroByte : NeZero 256 := ⟨by decide⟩

abbrev Bytes := List Byte

/-- 文字列の中の一 byte。`00` は `00 FF` になる。 -/
def escapeByte (b : Byte) : Bytes := if b = 0 then [0, 0xFF] else [b]

/-- 文字列の中身。 -/
def escape (s : Bytes) : Bytes := s.flatMap escapeByte

/-- 文字列の符号。 -/
def packString (s : Bytes) : Bytes := 2 :: (escape s ++ [0])

/-- 末尾の `FF` を捨て、残りの最後の byte に 1 を足す。すべて `FF` なら失敗する。 -/
def strinc (p : Bytes) : Option Bytes :=
  match p.reverse.dropWhile (fun b => decide (b = 0xFF)) with
  | [] => none
  | b :: rest => some (rest.reverse ++ [b + 1])

/-- `n` の下位 `len` byte を big-endian で並べる。 -/
def beBytes : Nat → Nat → Bytes
  | 0, _ => []
  | len + 1, n => beBytes len (n / 256) ++ [Fin.ofNat 256 n]

/-- versionstamp の符号。12 byte を整数として受け取る。 -/
def packVersionstamp (stamp : Nat) : Bytes := 0x33 :: beBytes 12 stamp

/-- 負でない 64 bit 整数の byte 数。 -/
def byteLength (n : Nat) : Nat := ((List.range 8).filter (fun i => decide (256 ^ i ≤ n))).length

/-- 負でない整数の符号。型の番号に byte 数が入る。 -/
def packInt (n : Nat) : Bytes := Fin.ofNat 256 (0x14 + byteLength n) :: beBytes (byteLength n) n

/-- 空でなく、先頭の byte が型の番号であること。`FF` の番号を持つ型はない。 -/
def IsElement (x : Bytes) : Prop := x ≠ [] ∧ x < [0xFF]

theorem isElement_packVersionstamp (stamp : Nat) : IsElement (packVersionstamp stamp) :=
  ⟨List.cons_ne_nil _ _, List.cons_lt_cons_iff.mpr (Or.inl (by decide))⟩

theorem isElement_packInt (n : Nat) : IsElement (packInt n) := by
  refine ⟨List.cons_ne_nil _ _, List.cons_lt_cons_iff.mpr (Or.inl ?_)⟩
  have hlen : byteLength n ≤ 8 := by
    unfold byteLength
    exact (List.length_filter_le _ _).trans (by simp)
  show (0x14 + byteLength n) % 256 < 255
  omega

/-! ## 辞書式順序 -/

theorem lt_append_of_ne_nil {s x : Bytes} (hx : x ≠ []) : s < s ++ x := by
  induction s with
  | nil =>
    cases x with
    | nil => exact absurd rfl hx
    | cons b r => exact List.nil_lt_cons _ _
  | cons b s ih => exact List.cons_lt_cons_iff.mpr (Or.inr ⟨rfl, ih⟩)

theorem append_lt_append_left_iff {p s t : Bytes} : p ++ s < p ++ t ↔ s < t := by
  induction p with
  | nil => rfl
  | cons b p ih => simp [ih]

/-- `p` 以上で `p ++ q` より小さい列は `p` から始まる。 -/
theorem exists_append_of_le_of_lt {q : Bytes} : ∀ {p k : Bytes}, p ≤ k → k < p ++ q →
    ∃ r, k = p ++ r ∧ r < q
  | [], k, _, h => ⟨k, rfl, h⟩
  | a :: p, [], h, _ => absurd (List.nil_lt_cons _ _) (not_lt.mpr h)
  | a :: p, b :: k, h1, h2 => by
    rcases List.cons_lt_cons_iff.mp h2 with hlt | ⟨rfl, hlt⟩
    · exact absurd (List.cons_lt_cons_iff.mpr (Or.inl hlt)) (not_lt.mpr h1)
    · have hle : p ≤ k := by
        rw [← not_lt]
        exact fun hc => not_lt.mpr h1 (List.cons_lt_cons_iff.mpr (Or.inr ⟨rfl, hc⟩))
      obtain ⟨r, rfl, hr⟩ := exists_append_of_le_of_lt hle hlt
      exact ⟨r, rfl, hr⟩

/-- 小さい byte の符号は、後ろに何が続いても小さい。 -/
theorem escapeByte_append_lt {a b : Byte} (h : a < b) (u w : Bytes) :
    escapeByte a ++ u < escapeByte b ++ w := by
  have hb : b ≠ 0 := fun hc => by rw [hc] at h; exact absurd h (Fin.not_lt_zero a)
  unfold escapeByte
  rw [if_neg hb, List.cons_append]
  by_cases ha : a = 0
  · rw [if_pos ha]
    exact List.cons_lt_cons_iff.mpr (Or.inl (Fin.pos_of_ne_zero hb))
  · rw [if_neg ha]
    exact List.cons_lt_cons_iff.mpr (Or.inl h)

/-- 文字列の終わりの `00` は、続きのある文字列の符号より小さい。 -/
theorem zero_lt_escapeByte {x w : Bytes} (hx : x ≤ [0xFF]) (hw : w ≠ []) (b : Byte) :
    0 :: x < escapeByte b ++ w := by
  unfold escapeByte
  by_cases hb : b = 0
  · rw [if_pos hb, List.cons_append, List.cons_lt_cons_iff]
    exact Or.inr ⟨rfl, lt_of_le_of_lt hx (lt_append_of_ne_nil hw)⟩
  · rw [if_neg hb, List.cons_append, List.cons_lt_cons_iff]
    exact Or.inl (Fin.pos_of_ne_zero hb)

/-- 文字列の順序は符号の順序に移る。 -/
theorem escape_lt {x : Bytes} (hx : x ≤ [0xFF]) (y : Bytes) :
    ∀ {s t : Bytes}, s < t → escape s ++ 0 :: x < escape t ++ 0 :: y
  | [], [], h => absurd h (lt_irrefl _)
  | [], b :: t, _ => by
    simp only [escape, List.flatMap_nil, List.nil_append, List.flatMap_cons, List.append_assoc]
    exact zero_lt_escapeByte hx (by simp) b
  | a :: s, [], h => absurd h (List.not_lt_nil _)
  | a :: s, b :: t, h => by
    simp only [escape, List.flatMap_cons, List.append_assoc]
    rcases List.cons_lt_cons_iff.mp h with hab | ⟨rfl, hst⟩
    · exact escapeByte_append_lt hab _ _
    · exact append_lt_append_left_iff.mpr (escape_lt hx y hst)

theorem packString_append_lt {s t x : Bytes} (hx : x ≤ [0xFF]) (y : Bytes)
    (h : s < t) : packString s ++ x < packString t ++ y := by
  unfold packString
  simp only [List.cons_append, List.append_assoc, List.nil_append]
  exact List.cons_lt_cons_iff.mpr (Or.inr ⟨rfl, escape_lt hx y h⟩)

/-- `packString s` から始まる範囲に入るのは、`s` 以上の文字列の鍵である。 -/
theorem append_lt_packString_iff {k s x : Bytes} (hx : IsElement x) :
    packString k ++ x < packString s ↔ k < s := by
  constructor
  · intro h
    rcases lt_trichotomy k s with hlt | rfl | hgt
    · exact hlt
    · exact absurd (lt_append_of_ne_nil hx.1) (lt_asymm h)
    · have hc := packString_append_lt (List.nil_lt_cons _ _).le x hgt
      rw [List.append_nil] at hc
      exact absurd hc (lt_asymm h)
  · intro h
    have hc := packString_append_lt hx.2.le [] h
    rwa [List.append_nil] at hc

/-! ## 整数の順序 -/

/-- 同じ長さの列の後ろは、前が等しいときだけ効く。 -/
theorem append_lt_append_iff {x y : Bytes} : ∀ {s t : Bytes}, s.length = t.length →
    (s ++ x < t ++ y ↔ s < t ∨ s = t ∧ x < y)
  | [], [], _ => by simp
  | a :: s, b :: t, h => by
    have ih : s ++ x < t ++ y ↔ s < t ∨ s = t ∧ x < y := append_lt_append_iff (by simpa using h)
    simp only [List.cons_append, List.cons_lt_cons_iff, ih, List.cons.injEq]
    tauto

@[simp] theorem length_beBytes : ∀ len n : Nat, (beBytes len n).length = len
  | 0, _ => rfl
  | len + 1, n => by simp [beBytes, length_beBytes len]

/-- big-endian の byte 列の順序は、整数の順序である。 -/
theorem beBytes_lt : ∀ {len m n : Nat}, m < n → n < 256 ^ len → beBytes len m < beBytes len n
  | 0, m, n, h, hn => by simp at hn; omega
  | len + 1, m, n, h, hn => by
    unfold beBytes
    rw [append_lt_append_iff (by simp)]
    rcases lt_or_eq_of_le (Nat.div_le_div_right (c := 256) h.le) with hlt | heq
    · exact Or.inl (beBytes_lt hlt (by rw [pow_succ] at hn; omega))
    · refine Or.inr ⟨by rw [heq], List.cons_lt_cons_iff.mpr (Or.inl ?_)⟩
      show m % 256 < n % 256
      omega

theorem packVersionstamp_lt {m n : Nat} (h : m < n) (hn : n < 256 ^ 12) :
    packVersionstamp m < packVersionstamp n :=
  List.cons_lt_cons_iff.mpr (Or.inr ⟨rfl, beBytes_lt h hn⟩)

theorem packVersionstamp_lt_iff {m n : Nat} (hm : m < 256 ^ 12) (hn : n < 256 ^ 12) :
    packVersionstamp m < packVersionstamp n ↔ m < n := by
  refine ⟨fun h => ?_, fun h => packVersionstamp_lt h hn⟩
  rcases lt_trichotomy m n with hlt | rfl | hgt
  · exact hlt
  · exact absurd h (lt_irrefl _)
  · exact absurd (packVersionstamp_lt hgt hm) (lt_asymm h)

/-- versionstamp で始まる鍵の順序は、versionstamp、残りの順に決まる。 -/
theorem packVersionstamp_append_lt_iff {m n : Nat} {x y : Bytes} (hm : m < 256 ^ 12)
    (hn : n < 256 ^ 12) : packVersionstamp m ++ x < packVersionstamp n ++ y ↔
      m < n ∨ m = n ∧ x < y := by
  have hinj : packVersionstamp m = packVersionstamp n ↔ m = n := by
    refine ⟨fun h => ?_, fun h => by rw [h]⟩
    refine le_antisymm (not_lt.mp fun hc => ?_) (not_lt.mp fun hc => ?_)
    · exact (packVersionstamp_lt hc hm).ne h.symm
    · exact (packVersionstamp_lt hc hn).ne h
  rw [append_lt_append_iff (by simp [packVersionstamp]), packVersionstamp_lt_iff hm hn, hinj]

theorem byteLength_mono {m n : Nat} (h : m ≤ n) : byteLength m ≤ byteLength n := by
  refine (List.monotone_filter_right _ fun i hi => ?_).length_le
  exact decide_eq_true ((of_decide_eq_true hi).trans h)

theorem lt_pow_byteLength {n : Nat} (h : n < 256 ^ 8) : n < 256 ^ byteLength n := by
  have hex : ∃ len, n < 256 ^ len := ⟨8, h⟩
  obtain ⟨len, hlt, hmin⟩ : ∃ len, n < 256 ^ len ∧ ∀ i < len, 256 ^ i ≤ n :=
    ⟨Nat.find hex, Nat.find_spec hex, fun i hi => not_lt.mp (Nat.find_min hex hi)⟩
  have hlen : len ≤ 8 := by
    by_contra hc
    exact absurd (hmin 8 (not_le.mp hc)) (not_le.mpr h)
  -- `n` 以下の冪は、ちょうど `len` 個ある
  have hfilter : (List.range 8).filter (fun i => decide (256 ^ i ≤ n))
      = (List.range 8).filter (fun i => decide (i < len)) := by
    refine List.filter_congr fun i _ => ?_
    rw [decide_eq_decide]
    refine ⟨fun hi => ?_, hmin i⟩
    exact (Nat.pow_lt_pow_iff_right (by decide)).mp (hi.trans_lt hlt)
  have hcount : ((List.range 8).filter (fun i => decide (i < len))).length = len := by
    interval_cases len <;> rfl
  rw [byteLength, hfilter, hcount]
  exact hlt

/-- 整数の符号は順序を保つ。 -/
theorem packInt_lt {m n : Nat} (h : m < n) (hn : n < 256 ^ 8) : packInt m < packInt n := by
  have hm8 := (List.length_filter_le (fun i => decide (256 ^ i ≤ m)) (List.range 8)).trans_eq
    List.length_range
  have hn8 := (List.length_filter_le (fun i => decide (256 ^ i ≤ n)) (List.range 8)).trans_eq
    List.length_range
  unfold packInt
  rw [List.cons_lt_cons_iff]
  rcases lt_or_eq_of_le (byteLength_mono h.le) with hlt | heq
  · left
    show (0x14 + byteLength m) % 256 < (0x14 + byteLength n) % 256
    unfold byteLength at *
    omega
  · right
    rw [heq]
    exact ⟨rfl, beBytes_lt h (lt_pow_byteLength hn)⟩

theorem packInt_lt_iff {m n : Nat} (hm : m < 256 ^ 8) (hn : n < 256 ^ 8) :
    packInt m < packInt n ↔ m < n := by
  refine ⟨fun h => ?_, fun h => packInt_lt h hn⟩
  rcases lt_trichotomy m n with hlt | rfl | hgt
  · exact hlt
  · exact absurd h (lt_irrefl _)
  · exact absurd (packInt_lt hgt hm) (lt_asymm h)

/-! ## strinc -/

theorem strinc_concat {p : Bytes} {b : Byte} (hb : b ≠ 0xFF) :
    strinc (p ++ [b]) = some (p ++ [b + 1]) := by
  unfold strinc
  rw [List.reverse_append, List.reverse_singleton, List.singleton_append,
    List.dropWhile_cons_of_neg (by simpa using hb)]
  simp

/-- `q ++ [c]` を prefix に持つ byte 列は、それ以上で `strinc` より小さいものである。 -/
theorem prefix_concat_iff_mem_range {c : Byte} (hc : c ≠ 0xFF) : ∀ {q k : Bytes},
    q ++ [c] <+: k ↔ q ++ [c] ≤ k ∧ k < q ++ [c + 1]
  | [], [] => by
    refine iff_of_false (by simp) (fun h => ?_)
    exact absurd h.1 (not_le.mpr (List.nil_lt_cons c []))
  | [], b :: k => by
    have hsucc : (c + 1).val = c.val + 1 := by
      have hne : c.val ≠ 255 := fun h => hc (Fin.ext h)
      have := c.isLt
      rw [Fin.val_add]
      show (c.val + 1) % 256 = _
      omega
    rw [List.nil_append, List.nil_append, List.singleton_prefix_cons_iff, ← not_lt,
      List.cons_lt_cons_iff, List.cons_lt_cons_iff]
    have hbc : b < c + 1 ↔ b ≤ c := by rw [Fin.lt_def, hsucc, Fin.le_def]; omega
    simp only [List.not_lt_nil, and_false, or_false, hbc]
    constructor
    · rintro rfl
      exact ⟨lt_irrefl _, le_rfl⟩
    · rintro ⟨h1, h2⟩
      exact le_antisymm (not_lt.mp h1) h2
  | a :: q, [] => by
    refine iff_of_false (by simp) (fun h => ?_)
    exact absurd h.1 (not_le.mpr (List.nil_lt_cons a _))
  | a :: q, b :: k => by
    have ih := prefix_concat_iff_mem_range hc (q := q) (k := k)
    rw [List.cons_append, List.cons_append, List.cons_prefix_cons, ih, ← not_lt, ← not_lt,
      List.cons_lt_cons_iff, List.cons_lt_cons_iff]
    constructor
    · rintro ⟨rfl, h1, h2⟩
      exact ⟨fun h => h.elim (lt_irrefl _) (fun h => h1 h.2), Or.inr ⟨rfl, h2⟩⟩
    · rintro ⟨h1, h2 | ⟨rfl, h2⟩⟩
      · exact absurd (Or.inl h2) h1
      · exact ⟨rfl, fun h => h1 (Or.inr ⟨rfl, h⟩), h2⟩

theorem strinc_packString (s : Bytes) : strinc (packString s) = some (2 :: (escape s ++ [1])) := by
  unfold packString
  rw [← List.cons_append, strinc_concat (by decide)]
  rfl

theorem escapeByte_append_lt_singleton_iff {b c : Byte} (hc : c ≠ 0) (u : Bytes) :
    escapeByte b ++ u < [c] ↔ b < c := by
  have hpos : (0 : Byte) < c := Fin.pos_of_ne_zero hc
  unfold escapeByte
  by_cases hb : b = 0
  · rw [if_pos hb, List.cons_append, List.cons_lt_cons_iff, hb]
    exact ⟨fun _ => hpos, fun _ => Or.inl hpos⟩
  · rw [if_neg hb, List.cons_append, List.cons_lt_cons_iff]
    exact ⟨fun h => h.elim id (fun h => absurd h.2 (List.not_lt_nil _)), Or.inl⟩

/-- 符号の途中で切って一 byte を置いた端点より小さいのは、そこまでの文字列が小さいか、
そこまでが等しく次の byte が小さい文字列の鍵である。 -/
theorem escape_append_lt_iff {x : Bytes} (hx : x ≤ [0xFF]) {c : Byte} (hc : c ≠ 0) :
    ∀ {s k : Bytes}, escape k ++ 0 :: x < escape s ++ [c] ↔
      k ≤ s ∨ ∃ b r, k = s ++ b :: r ∧ b < c
  | [], [] => by
    refine ⟨fun _ => Or.inl le_rfl, fun _ => ?_⟩
    exact List.cons_lt_cons_iff.mpr (Or.inl (Fin.pos_of_ne_zero hc))
  | [], b :: k => by
    simp only [escape, List.flatMap_cons, List.flatMap_nil, List.nil_append, List.append_assoc]
    rw [escapeByte_append_lt_singleton_iff hc]
    constructor
    · exact fun h => Or.inr ⟨b, k, rfl, h⟩
    · rintro (h | ⟨b', r, he, h⟩)
      · exact absurd h (not_le.mpr (List.nil_lt_cons _ _))
      · rw [(List.cons.inj he).1]
        exact h
  | a :: s, [] => by
    simp only [escape, List.flatMap_cons, List.flatMap_nil, List.nil_append, List.append_assoc]
    exact ⟨fun _ => Or.inl (List.nil_lt_cons _ _).le, fun _ => zero_lt_escapeByte hx (by simp) a⟩
  | a :: s, b :: k => by
    have ih := escape_append_lt_iff hx hc (s := s) (k := k)
    simp only [escape] at ih
    simp only [escape, List.flatMap_cons, List.append_assoc]
    rcases lt_trichotomy b a with hlt | rfl | hgt
    · refine ⟨fun _ => Or.inl (List.cons_lt_cons_iff.mpr (Or.inl hlt)).le, fun _ => ?_⟩
      exact escapeByte_append_lt hlt _ _
    · rw [append_lt_append_left_iff, ih]
      refine or_congr ?_ ?_
      · rw [← not_lt, ← not_lt, List.cons_lt_cons_iff]
        simp
      · constructor
        · rintro ⟨b', r, rfl, h⟩
          exact ⟨b', r, rfl, h⟩
        · rintro ⟨b', r, he, h⟩
          exact ⟨b', r, (List.cons.inj he).2, h⟩
    · constructor
      · intro h
        exact absurd (escapeByte_append_lt hgt _ _) (lt_asymm h)
      · rintro (h | ⟨b', r, he, -⟩)
        · exact absurd (List.cons_lt_cons_iff.mpr (Or.inl hgt)) (not_lt.mpr h)
        · exact absurd (List.cons.inj he).1 hgt.ne'

theorem packString_append_lt_iff {k s x : Bytes} (hx : x ≤ [0xFF]) {c : Byte}
    (hc : c ≠ 0) : packString k ++ x < 2 :: (escape s ++ [c]) ↔
      k ≤ s ∨ ∃ b r, k = s ++ b :: r ∧ b < c := by
  unfold packString
  simp only [List.cons_append, List.append_assoc, List.nil_append]
  rw [List.cons_lt_cons_iff, ← escape_append_lt_iff hx hc]
  simp

/-- 文字列の符号の終わりを 1 進めた端点。`s` に `00` を足して始まる文字列もこの下に入る。 -/
theorem append_lt_strinc_iff {k s x : Bytes} (hx : x ≤ [0xFF]) :
    packString k ++ x < 2 :: (escape s ++ [1]) ↔ k ≤ s ∨ s ++ [0] <+: k := by
  rw [packString_append_lt_iff hx (by decide)]
  refine or_congr_right ⟨?_, ?_⟩
  · rintro ⟨b, r, rfl, hb⟩
    have hb0 : b = 0 := Fin.ext (by have : b.val < 1 := hb; omega)
    exact ⟨r, by rw [hb0]; simp⟩
  · rintro ⟨r, rfl⟩
    exact ⟨0, r, by simp, by decide⟩

/-- 文字列の符号を prefix とする範囲に入るのは、その文字列と、それに `00` を足して始まる文字列の鍵である。 -/
theorem append_mem_prefixRange_iff {k s x : Bytes} (hx : IsElement x) :
    packString s ≤ packString k ++ x ∧ packString k ++ x < 2 :: (escape s ++ [1]) ↔
      k = s ∨ s ++ [0] <+: k := by
  rw [append_lt_strinc_iff hx.2.le, ← not_lt, append_lt_packString_iff hx, not_lt]
  constructor
  · rintro ⟨h1, h2 | h2⟩
    · exact Or.inl (le_antisymm h2 h1)
    · exact Or.inr h2
  · rintro (rfl | h)
    · exact ⟨le_rfl, Or.inl le_rfl⟩
    · obtain ⟨r, rfl⟩ := h
      rw [List.append_assoc]
      exact ⟨(lt_append_of_ne_nil (by simp)).le, Or.inr ⟨r, by simp⟩⟩

/-- `s` の下の途中から始まる範囲。`s` のほかに入るのは、`s` に `00` を足して始まる文字列の鍵である。 -/
theorem append_mem_tail_of_ne {k s x y : Bytes} (hx : IsElement x) (hy : IsElement y) (hne : k ≠ s) :
    packString s ++ x ≤ packString k ++ y ∧ packString k ++ y < 2 :: (escape s ++ [1]) ↔
      s ++ [0] <+: k := by
  rw [append_lt_strinc_iff hy.2.le, ← not_lt]
  rcases lt_or_gt_of_ne hne with hlt | hgt
  · constructor
    · rintro ⟨h1, -⟩
      exact absurd (packString_append_lt hy.2.le _ hlt) h1
    · rintro ⟨r, rfl⟩
      rw [List.append_assoc] at hlt
      exact absurd (lt_append_of_ne_nil (by simp)) (lt_asymm hlt)
  · constructor
    · rintro ⟨-, h | h⟩
      · exact absurd h (not_le.mpr hgt)
      · exact h
    · exact fun h => ⟨lt_asymm (packString_append_lt hx.2.le _ hgt), Or.inr h⟩

/-- `s` の下の整数 `n` から始まる範囲。`s` の鍵では `n` 以上のものだけが入る。 -/
theorem append_mem_tailRange_iff {k s : Bytes} {n o : Nat} (hn : n < 256 ^ 8) (ho : o < 256 ^ 8) :
    packString s ++ packInt n ≤ packString k ++ packInt o ∧
        packString k ++ packInt o < 2 :: (escape s ++ [1]) ↔
      (k = s ∧ n ≤ o) ∨ s ++ [0] <+: k := by
  rcases eq_or_ne k s with rfl | hne
  · rw [append_lt_strinc_iff (isElement_packInt o).2.le, ← not_lt, append_lt_append_left_iff,
      packInt_lt_iff ho hn, not_lt]
    constructor
    · exact fun h => Or.inl ⟨rfl, h.1⟩
    · rintro (⟨-, h⟩ | ⟨r, hr⟩)
      · exact ⟨h, Or.inl le_rfl⟩
      · exact absurd (congrArg List.length hr) (by simp)
  · rw [append_mem_tail_of_ne (isElement_packInt n) (isElement_packInt o) hne]
    exact ⟨Or.inr, fun h => h.resolve_left fun hc => hne hc.1⟩

/-- 終わりの `00` を外してから 1 進めた端点。prefix を持つ文字列がちょうど入る。 -/
theorem strinc_packString_dropLast {p : Bytes} {c : Byte} (h0 : c ≠ 0) (hc : c ≠ 0xFF) :
    strinc (packString (p ++ [c])).dropLast = some (2 :: (escape p ++ [c + 1])) := by
  have he : (packString (p ++ [c])).dropLast = (2 :: escape p) ++ [c] := by
    unfold packString escape
    rw [← List.cons_append, List.dropLast_concat, List.flatMap_append]
    simp [escapeByte, h0]
  rw [he, strinc_concat hc]
  rfl

theorem append_lt_prefixEnd_iff {k p x : Bytes} {c : Byte} (hx : x ≤ [0xFF])
    (hc : c ≠ 0xFF) :
    packString k ++ x < 2 :: (escape p ++ [c + 1]) ↔ k < p ++ [c] ∨ p ++ [c] <+: k := by
  have hne : c.val ≠ 255 := fun h => hc (Fin.ext h)
  have hval : (c + 1).val = c.val + 1 := by
    rw [Fin.val_add]
    have := c.isLt
    simp only [Fin.val_one]
    omega
  have hc1 : c + 1 ≠ 0 := fun h => by
    have := congrArg Fin.val h
    rw [hval] at this
    simp at this
  rw [packString_append_lt_iff hx hc1]
  constructor
  · rintro (h | ⟨b, r, rfl, hb⟩)
    · exact Or.inl (lt_of_le_of_lt h (lt_append_of_ne_nil (by simp)))
    · have hb' : b.val ≤ c.val := by
        have : b.val < (c + 1).val := hb
        omega
      rcases lt_or_eq_of_le (show b ≤ c from hb') with hlt | rfl
      · exact Or.inl (append_lt_append_left_iff.mpr (List.cons_lt_cons_iff.mpr (Or.inl hlt)))
      · exact Or.inr ⟨r, by simp⟩
  · have hself : c < c + 1 := by
      show c.val < (c + 1).val
      omega
    rintro (h | ⟨r, rfl⟩)
    · rcases le_or_gt k p with hkp | hkp
      · exact Or.inl hkp
      · obtain ⟨d, rfl, hd⟩ := exists_append_of_le_of_lt hkp.le h
        cases d with
        | nil => exact Or.inl (by simp)
        | cons b r =>
          rcases List.cons_lt_cons_iff.mp hd with hb | ⟨-, hr⟩
          · exact Or.inr ⟨b, r, rfl, hb.trans hself⟩
          · exact absurd hr (List.not_lt_nil _)
    · exact Or.inr ⟨c, r, by simp, hself⟩

/-- 文字列 `p` の下の範囲に入るのは `p` そのものの鍵である。 -/
theorem append_mem_sub_iff {k p x : Bytes} (hx : IsElement x) :
    packString p ++ [0] ≤ packString k ++ x ∧ packString k ++ x < packString p ++ [0xFF] ↔
      k = p := by
  constructor
  · rintro ⟨h1, h2⟩
    rcases lt_trichotomy k p with hlt | rfl | hgt
    · exact absurd (packString_append_lt hx.2.le [0] hlt) (not_lt.mpr h1)
    · rfl
    · exact absurd (packString_append_lt le_rfl x hgt) (lt_asymm h2)
  · rintro rfl
    refine ⟨?_, append_lt_append_left_iff.mpr hx.2⟩
    rw [← not_lt, append_lt_append_left_iff]
    obtain ⟨hne, -⟩ := hx
    cases x with
    | nil => exact absurd rfl hne
    | cons b r =>
      rw [List.cons_lt_cons_iff]
      rintro (hb | ⟨-, hr⟩)
      · exact absurd hb (Fin.not_lt_zero b)
      · exact absurd hr (List.not_lt_nil _)

end Tuple
