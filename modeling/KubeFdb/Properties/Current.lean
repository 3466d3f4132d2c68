import KubeFdb.Properties.Represents
import KubeFdb.Driver.Read
import Mathlib.Data.List.TakeWhile

/-!
# byKeyCurrent と list の値

`byKeyCurrent` の鍵の chunk は、ないか、最後の record の値をちょうど持つ（`CurrentOf`）。`append` は
これを保つ（`clear_current`、`replace_current`）。範囲の消去は NUL を足して延ばした鍵にも及ぶが、その鍵の
chunk をすべて消すので、途中の chunk だけが残ることはない。

`listCollector.endBatch` は、走査した record の値を `byKeyCurrent` との merge-join で埋め、
足りないものを log から読む。

* `mergeJoin_spec` — 印の付いた record の buffer には、その鍵の chunk がすべて入る
* `resolve_spec` — 埋めた値は、commit されたときの値である
-/

namespace KubeFdb

open Tuple

section

variable (m : OrdMap ChunkKey Bytes) (k : Key)

/-- 鍵に chunk がないこと。 -/
def NoChunks : Prop := ∀ o b, (currentKey k o, b) ∉ m.entries

/-- 鍵の chunk が、ちょうど値 `value` の chunk であること。 -/
def Chunked (value : Bytes) : Prop :=
  ∀ o b, (currentKey k o, b) ∈ m.entries ↔ (o, b) ∈ chunksOf value

end

/-- `byKeyCurrent` の鍵の chunk が、ないか、履歴 `hist` の最後の record の値をちょうど持つこと。
chunk のない鍵の値は log から読まれる。 -/
def CurrentOf (hist : List RevRecord) (m : OrdMap ChunkKey Bytes) : Prop :=
  ∀ k, NoChunks m k ∨
    ∃ r, newest RevRecord.key hist k = some r ∧ r.record.isDelete = false ∧
      Chunked m k r.record.value

variable {hist : List RevRecord} {m m' : OrdMap ChunkKey Bytes} {r : RevRecord}

theorem currentOf_empty (hist : List RevRecord) :
    CurrentOf hist (.empty : OrdMap ChunkKey Bytes) :=
  fun k => Or.inl (fun o b h => by simp at h)

/-! ## 範囲の消去 -/

/-- 範囲の消去は、鍵ごとの chunk を減らすだけである。 -/
theorem mem_clearRange {begin_ end_ : Bytes} {e : ChunkKey × Bytes} :
    e ∈ (ByKeyCurrent.clearRange m begin_ end_).entries ↔
      e ∈ m.entries ∧ ¬ (begin_ ≤ ByKeyCurrent.packChunkKey e.1 ∧
        ByKeyCurrent.packChunkKey e.1 < end_) := by
  unfold ByKeyCurrent.clearRange
  rw [OrdMap.mem_filter, Bool.not_eq_true', ← Bool.not_eq_true, Bool.and_eq_true,
    decide_eq_true_eq, decide_eq_true_eq]

/-- 消えるのは、鍵そのものと、NUL を足して延ばした鍵の chunk である。 -/
theorem mem_clear {key k : Key} {o : Nat} {b : Bytes} :
    (currentKey k o, b) ∈ (ByKeyCurrent.clear m key).entries ↔
      (currentKey k o, b) ∈ m.entries ∧ ¬ (k = key ∨ key ++ [0] <+: k) := by
  unfold ByKeyCurrent.clear
  rw [mem_clearRange, strinc_packString, Option.getD_some]
  exact and_congr_right fun _ => not_congr (append_mem_prefixRange_iff (isElement_packInt o))

/-- chunk の数が減るときに消えるのは、鍵の後ろの chunk と、NUL を足して延ばした鍵の chunk である。 -/
theorem mem_clearTail {key k : Key} {n o : Nat} {b : Bytes} (hn : n < 256 ^ 8) (ho : o < 256 ^ 8) :
    (currentKey k o, b) ∈ (ByKeyCurrent.clearRange m (packString key ++ packInt n)
        ((strinc (packString key)).getD [])).entries ↔
      (currentKey k o, b) ∈ m.entries ∧ ¬ ((k = key ∧ n ≤ o) ∨ key ++ [0] <+: k) := by
  rw [mem_clearRange, strinc_packString, Option.getD_some]
  exact and_congr_right fun _ => not_congr (append_mem_tailRange_iff hn ho)

/-- 鍵のすべての chunk が同じに残るか消えれば、鍵の chunk はそのままか、なくなる。 -/
theorem NoChunks.of_subset {k : Key} (h : NoChunks m k)
    (hsub : ∀ o b, (currentKey k o, b) ∈ m'.entries → (currentKey k o, b) ∈ m.entries) :
    NoChunks m' k := fun o b hm => h o b (hsub o b hm)

/-- 鍵の chunk が同じなら、`CurrentOf` の条件も同じである。 -/
theorem CurrentOf.transfer {k : Key} (h : CurrentOf hist m)
    (hnew : newest RevRecord.key (hist ++ [r]) k = newest RevRecord.key hist k)
    (hsame : ∀ o b, (currentKey k o, b) ∈ m'.entries ↔ (currentKey k o, b) ∈ m.entries) :
    NoChunks m' k ∨ ∃ r', newest RevRecord.key (hist ++ [r]) k = some r' ∧
      r'.record.isDelete = false ∧ Chunked m' k r'.record.value := by
  rw [hnew]
  rcases h k with hno | ⟨r', hn, hd, hc⟩
  · exact Or.inl (hno.of_subset fun o b => (hsame o b).mp)
  · exact Or.inr ⟨r', hn, hd, fun o b => (hsame o b).trans (hc o b)⟩

/-- tombstone を書くと、鍵の chunk はなくなる。 -/
theorem clear_current (h : CurrentOf hist m) (r : RevRecord) :
    CurrentOf (hist ++ [r]) (ByKeyCurrent.clear m r.key) := by
  intro k
  by_cases hk : k = r.key ∨ r.key ++ [0] <+: k
  · exact Or.inl fun o b hm => (mem_clear.mp hm).2 hk
  · refine h.transfer ?_ fun o b => ?_
    · rw [newest_concat, if_neg fun hc => hk (Or.inl hc.symm)]
    · rw [mem_clear, and_iff_left hk]

/-! ## 値の置き換え -/

/-- chunk の offset は、値の大きさだけで決まる。 -/
theorem mem_chunksOf_offset {value : Bytes} {i : Nat} (h : i < numChunks value.length) :
    ∃ b, (i * chunkSize, b) ∈ chunksOf value :=
  ⟨_, List.mem_map.mpr ⟨i, List.mem_range.mpr h, rfl⟩⟩

/-- 保存できる大きさの値の offset は 64 bit に収まる。 -/
theorem offset_lt_pow {len i : Nat} (hlen : len ≤ maxRecordSize) (h : i ≤ numChunks len) :
    i * chunkSize < 256 ^ 8 := by
  have h1 : numChunks len * chunkSize ≤ len + chunkSize - 1 := Nat.div_mul_le_self _ _
  have h2 : i * chunkSize ≤ numChunks len * chunkSize := Nat.mul_le_mul_right _ h
  unfold maxRecordSize at hlen
  unfold chunkSize at *
  omega

/-- `Replace` が chunk を書く前に残す entry。 -/
def replaceBase (m : OrdMap ChunkKey Bytes) (key : Key) (value : Bytes) (size : Int) :
    OrdMap ChunkKey Bytes :=
  if size < 0 then ByKeyCurrent.clear m key
  else if numChunks value.length < numChunks size.toNat then
    ByKeyCurrent.clearRange m (packString key ++ packInt (numChunks value.length * chunkSize))
      ((strinc (packString key)).getD [])
  else m

theorem mem_replace {key k : Key} {value : Bytes} {size : Int} {o : Nat} {b : Bytes} :
    (currentKey k o, b) ∈ (ByKeyCurrent.replace m key value size).entries ↔
      (k = key ∧ (o, b) ∈ chunksOf value) ∨
      ((currentKey k o, b) ∈ (replaceBase m key value size).entries ∧
        ∀ c ∈ chunksOf value, ¬ (k = key ∧ o = c.1)) := by
  have hs : SortedBy (fun c : Nat × Bytes => currentKey key c.1) (chunksOf value) := by
    refine List.Pairwise.imp ?_ (chunksOf_sorted value)
    intro a b hab
    exact Prod.Lex.lt_iff.mpr (Or.inr ⟨rfl, hab⟩)
  have hkey : ∀ c : Nat × Bytes, currentKey k o = currentKey key c.1 ↔ k = key ∧ o = c.1 :=
    fun c => Prod.ext_iff
  unfold ByKeyCurrent.replace
  rw [OrdMap.mem_foldl_set Prod.snd hs]
  refine or_congr ⟨?_, ?_⟩ (and_congr_right fun _ => forall₂_congr fun c _ => not_congr (hkey c))
  · rintro ⟨c, hc, he⟩
    obtain ⟨hk, ho⟩ := (hkey c).mp (congrArg Prod.fst he)
    have hb : b = c.2 := congrArg Prod.snd he
    exact ⟨hk, by rw [ho, hb]; exact hc⟩
  · rintro ⟨rfl, hc⟩
    exact ⟨(o, b), hc, rfl⟩

/-- ほかの鍵の chunk は、そのまま残るか、鍵が NUL で延びていてすべて消える。 -/
theorem replaceBase_other {key k : Key} (value : Bytes) (size : Int) (hk : k ≠ key)
    (hoff : ∀ o b, (currentKey k o, b) ∈ m.entries → o < 256 ^ 8)
    (hlen : value.length ≤ maxRecordSize) :
    NoChunks (replaceBase m key value size) k ∨
      ∀ o b, (currentKey k o, b) ∈ (replaceBase m key value size).entries ↔
        (currentKey k o, b) ∈ m.entries := by
  have hn := offset_lt_pow hlen le_rfl
  unfold replaceBase
  by_cases hx : key ++ [0] <+: k
  · split
    · exact Or.inl fun o b hm => (mem_clear.mp hm).2 (Or.inr hx)
    · split
      · refine Or.inl fun o b hm => ?_
        have ho := hoff o b (mem_clearRange.mp hm).1
        exact ((mem_clearTail hn ho).mp hm).2 (Or.inr hx)
      · exact Or.inr fun o b => Iff.rfl
  · right
    intro o b
    split
    · rw [mem_clear, and_iff_left (by tauto)]
    · split
      · refine ⟨fun hm => (mem_clearRange.mp hm).1, fun hm => ?_⟩
        exact (mem_clearTail hn (hoff o b hm)).mpr ⟨hm, by tauto⟩
      · rfl

/-- 値を書くと、鍵の chunk は新しい値のものに置き換わる。`size` は前の値の大きさである。 -/
theorem replace_current {size : Int} (h : CurrentOf hist m) (hw : ∀ r' ∈ hist, r'.Wf)
    (hd : r.record.isDelete = false) (hlen : r.record.value.length ≤ maxRecordSize)
    (hsize : ∀ r', newest RevRecord.key hist r.key = some r' → r'.record.isDelete = false →
      size = r'.record.value.length) :
    CurrentOf (hist ++ [r]) (ByKeyCurrent.replace m r.key r.record.value size) := by
  -- 保存されている chunk の offset は 64 bit に収まる
  have hoff : ∀ k o b, (currentKey k o, b) ∈ m.entries → o < 256 ^ 8 := by
    intro k o b hm
    rcases h k with hno | ⟨r', hn, -, hc⟩
    · exact absurd hm (hno o b)
    · obtain ⟨i, hi, he⟩ := mem_chunksOf ((hc o b).mp hm)
      rw [show o = i * chunkSize from congrArg Prod.fst he]
      exact offset_lt_pow (hw r' (newest_mem hn).1).bound hi.le
  intro k
  by_cases hk : k = r.key
  · subst hk
    right
    refine ⟨r, by rw [newest_concat, if_pos rfl], hd, fun o b => ?_⟩
    rw [mem_replace]
    refine ⟨?_, fun hc => Or.inl ⟨rfl, hc⟩⟩
    rintro (⟨-, hc⟩ | ⟨hbase, hne⟩)
    · exact hc
    · -- 前の値の chunk は、書き直されるか、範囲の消去で消えている
      exfalso
      have hm : (currentKey r.key o, b) ∈ m.entries := by
        unfold replaceBase at hbase
        split at hbase
        · exact (mem_clear.mp hbase).1
        · split at hbase
          · exact (mem_clearRange.mp hbase).1
          · exact hbase
      rcases h r.key with hno | ⟨r', hn, hd', hc⟩
      · exact hno o b hm
      · obtain ⟨i, hi, he⟩ := mem_chunksOf ((hc o b).mp hm)
        have ho : o = i * chunkSize := congrArg Prod.fst he
        have hsz := hsize r' hn hd'
        have hle : numChunks r.record.value.length ≤ i := by
          by_contra hlt
          obtain ⟨b', hb'⟩ := mem_chunksOf_offset (not_le.mp hlt)
          exact hne _ hb' ⟨rfl, ho⟩
        unfold replaceBase at hbase
        rw [if_neg (by omega), if_pos (by rw [hsz, Int.toNat_natCast]; omega)] at hbase
        refine ((mem_clearTail (offset_lt_pow hlen le_rfl) (hoff _ _ _ hm)).mp hbase).2 (Or.inl ⟨rfl, ?_⟩)
        rw [ho]
        exact Nat.mul_le_mul_right _ hle
  · have hnew : newest RevRecord.key (hist ++ [r]) k = newest RevRecord.key hist k := by
      rw [newest_concat, if_neg (Ne.symm hk)]
    have hrep : ∀ o b, (currentKey k o, b)
        ∈ (ByKeyCurrent.replace m r.key r.record.value size).entries ↔
          (currentKey k o, b) ∈ (replaceBase m r.key r.record.value size).entries := by
      intro o b
      rw [mem_replace]
      simp [hk]
    rcases replaceBase_other r.record.value size hk (hoff k) hlen with hno | hsame
    · exact Or.inl (hno.of_subset fun o b => (hrep o b).mp)
    · exact h.transfer hnew fun o b => (hrep o b).trans (hsame o b)

/-! ## 鍵の chunk -/

/-- 鍵 `k` の chunk を並べたもの。 -/
def joinChunks (chunks : List (ChunkKey × Bytes)) (k : Key) : Bytes :=
  ((chunks.filter (fun e => decide (e.1.key = k))).map Prod.snd).flatten

/-- 値の chunk をちょうど持つ鍵の chunk を並べると、その値になる。 -/
theorem Chunked.joinChunks_eq {k : Key} {value : Bytes} (h : Chunked m k value) :
    joinChunks m.entries k = value := by
  have heq : m.entries.filter (fun e => decide (e.1.key = k))
      = (chunksOf value).map (fun c => (currentKey k c.1, c.2)) := by
    refine SortedBy.eq_of_mem_iff (m.sorted.filter _) (f := Prod.fst) ?_ ?_
    · refine SortedBy.map_iff.mpr (List.Pairwise.imp ?_ (chunksOf_sorted value))
      intro a b hab
      exact Prod.Lex.lt_iff.mpr (Or.inr ⟨rfl, hab⟩)
    · intro e
      rw [List.mem_filter, List.mem_map, decide_eq_true_eq]
      constructor
      · rintro ⟨he, rfl⟩
        exact ⟨_, (h e.1.offset e.2).mp he, rfl⟩
      · rintro ⟨c, hc, rfl⟩
        exact ⟨(h _ _).mpr hc, rfl⟩
  unfold joinChunks
  rw [heq, List.map_map]
  exact chunksOf_flatten value

/-- 鍵の chunk を並べて空でなければ、最後の record の値である。 -/
theorem CurrentOf.joinChunks_eq (h : CurrentOf hist m) {k : Key}
    (hne : joinChunks m.entries k ≠ []) :
    ∃ r, newest RevRecord.key hist k = some r ∧ r.record.isDelete = false ∧
      joinChunks m.entries k = r.record.value := by
  rcases h k with hno | ⟨r, hn, hd, hc⟩
  · refine absurd ?_ hne
    unfold joinChunks
    rw [List.filter_eq_nil_iff.mpr]
    · rfl
    · intro e he hk
      rw [← of_decide_eq_true hk] at hno
      exact hno e.1.offset e.2 he
  · exact ⟨r, hn, hd, hc.joinChunks_eq⟩

/-- `RangeForKeys` は両端の間の鍵の chunk をすべて含む。 -/
theorem joinChunks_rangeForKeys {first last k : Key} (h1 : first ≤ k) (h2 : k ≤ last) :
    joinChunks (ByKeyCurrent.rangeForKeys m first last) k = joinChunks m.entries k := by
  unfold joinChunks ByKeyCurrent.rangeForKeys
  rw [List.filter_filter]
  congr 2
  refine List.filter_congr fun e _ => ?_
  by_cases hk : e.1.key = k
  · have hlow : packString first ≤ ByKeyCurrent.packChunkKey e.1 := by
      rw [ByKeyCurrent.packChunkKey, ← not_lt, append_lt_packString_iff (isElement_packInt _), hk]
      exact not_lt.mpr h1
    have hhigh : ByKeyCurrent.packChunkKey e.1 < (strinc (packString last)).getD [] := by
      rw [ByKeyCurrent.packChunkKey, strinc_packString, Option.getD_some,
        append_lt_strinc_iff (isElement_packInt _).2.le, hk]
      exact Or.inl h2
    rw [decide_eq_true hlow, decide_eq_true hhigh, Bool.and_true, Bool.and_true]
  · rw [decide_eq_false hk, Bool.false_and]

/-! ## merge-join -/

theorem joinChunks_cons (c : ChunkKey × Bytes) (rest : List (ChunkKey × Bytes)) (k : Key) :
    joinChunks (c :: rest) k = if c.1.key = k then c.2 ++ joinChunks rest k else joinChunks rest k := by
  unfold joinChunks
  by_cases hk : c.1.key = k
  · rw [if_pos hk, List.filter_cons_of_pos (by simpa using hk)]
    rfl
  · rw [if_neg hk, List.filter_cons_of_neg (by simpa using hk)]

theorem joinChunks_eq_nil {chunks : List (ChunkKey × Bytes)} {k : Key}
    (h : ∀ c ∈ chunks, k < c.1.key) : joinChunks chunks k = [] := by
  unfold joinChunks
  rw [List.filter_eq_nil_iff.mpr]
  · rfl
  · intro c hc
    simpa using (h c hc).ne'

/-- merge-join が record に足す値。 -/
def joined (chunks : List (ChunkKey × Bytes)) (r : RevRecord) : Bytes :=
  if r.record.latestForKey then joinChunks chunks r.key else []

theorem joined_cons_of_eq {c : ChunkKey × Bytes} {rest : List (ChunkKey × Bytes)}
    (hk : c.1.key = r.key) (hl : r.record.latestForKey = true) :
    joined (c :: rest) r = c.2 ++ joined rest r := by
  rw [joined, joined, if_pos hl, if_pos hl, joinChunks_cons, if_pos hk]

theorem joined_cons_of_ne {c : ChunkKey × Bytes} {rest : List (ChunkKey × Bytes)}
    (hk : c.1.key ≠ r.key) : joined (c :: rest) r = joined rest r := by
  rw [joined, joined, joinChunks_cons, if_neg hk]

theorem joined_unmarked {chunks : List (ChunkKey × Bytes)} (hl : r.record.latestForKey = false) :
    joined chunks r = [] := by
  rw [joined, if_neg (by simp [hl])]

theorem getElem?_length_takeWhile {α : Type} (p : α → Bool) : ∀ l : List α,
    l[(l.takeWhile p).length]? = (l.dropWhile p).head?
  | [] => rfl
  | a :: l => by
    cases ha : p a with
    | true => simp [ha, getElem?_length_takeWhile p l]
    | false => simp [ha]

/-- `idx` が追い付いた先より前の record の鍵は chunk の鍵より小さく、追い付いた先の鍵は小さくない。 -/
theorem catchUp_spec {batch : List RevRecord} {idx idx' : Nat} {k : Key}
    (hidx : ∀ j r, j < idx → batch[j]? = some r → r.key < k)
    (he : idx + ((batch.drop idx).takeWhile (fun r => decide (r.key < k))).length = idx') :
    (∀ j r, j < idx' → batch[j]? = some r → r.key < k) ∧
      ∀ r, batch[idx']? = some r → ¬ r.key < k := by
  subst he
  constructor
  · intro j r hj hr
    by_cases hlt : j < idx
    · exact hidx j r hlt hr
    · obtain ⟨i, rfl⟩ := Nat.exists_eq_add_of_le (not_lt.mp hlt)
      rw [← List.getElem?_drop, ← List.takeWhile_append_dropWhile
        (p := fun r : RevRecord => decide (r.key < k)) (l := batch.drop idx),
        List.getElem?_append_left (Nat.lt_of_add_lt_add_left hj)] at hr
      have hp := List.mem_takeWhile_imp (List.mem_of_getElem? hr)
      exact of_decide_eq_true hp
  · intro r hr hlt
    rw [← List.getElem?_drop, getElem?_length_takeWhile] at hr
    have hnot := List.head?_dropWhile_not (fun r : RevRecord => decide (r.key < k)) (batch.drop idx)
    rw [hr] at hnot
    simp [hlt] at hnot

/-- 印の付いた record の buffer には、その鍵の chunk が順に入る。 -/
theorem mergeJoin_getElem? {batch : List RevRecord} (hb : SortedBy RevRecord.key batch) :
    ∀ {chunks : List (ChunkKey × Bytes)} (idx : Nat) (bufs : List Bytes),
    chunks.Pairwise (fun a b => a.1.key ≤ b.1.key) →
    (∀ c ∈ chunks, ∀ j r, j < idx → batch[j]? = some r → r.key < c.1.key) →
    ∀ {j : Nat} {r : RevRecord}, batch[j]? = some r →
    (ListCollector.mergeJoin batch chunks idx bufs)[j]? = bufs[j]?.map (· ++ joined chunks r)
  | [], idx, bufs, _, _, j, r, hr => by
    simp [ListCollector.mergeJoin, joined, joinChunks]
  | chunk :: rest, idx, bufs, hc, hidx, j, r, hr => by
    obtain ⟨idx', hidx'⟩ : ∃ idx', idx + ((batch.drop idx).takeWhile
      (fun r => decide (r.key < chunk.1.key))).length = idx' := ⟨_, rfl⟩
    obtain ⟨hbefore, hat⟩ := catchUp_spec (hidx chunk List.mem_cons_self) hidx'
    have hle : ∀ c ∈ rest, chunk.1.key ≤ c.1.key := fun c hm => List.rel_of_pairwise_cons hc hm
    have hrest : ∀ c ∈ rest, ∀ j r, j < idx' → batch[j]? = some r → r.key < c.1.key :=
      fun c hm j r hj hr => (hbefore j r hj hr).trans_le (hle c hm)
    -- chunk の鍵を持つ record があるとすれば、追い付いた先だけである
    have hne : j ≠ idx' → chunk.1.key ≠ r.key := by
      intro hj he
      rcases Nat.lt_or_gt_of_ne hj with hlt | hgt
      · exact absurd he.symm (hbefore j r hlt hr).ne
      · have hlen : idx' < batch.length := hgt.trans (List.getElem?_eq_some_iff.mp hr).1
        have h0 : batch[idx']? = some batch[idx'] := List.getElem?_eq_getElem hlen
        exact hat _ h0 (he ▸ hb.getElem?_lt h0 hr hgt)
    rw [ListCollector.mergeJoin]
    simp only [hidx']
    cases hat' : batch[idx']? with
    | none =>
      have hlt : ∀ c ∈ chunk :: rest, r.key < c.1.key := by
        have hj : j < idx' := (List.getElem?_eq_some_iff.mp hr).1.trans_le
          (List.getElem?_eq_none_iff.mp hat')
        intro c hm
        rcases List.mem_cons.mp hm with rfl | hm
        · exact hbefore j r hj hr
        · exact hrest c hm j r hj hr
      simp [joined, joinChunks_eq_nil hlt]
    | some r₀ =>
      dsimp only
      by_cases hmatch : r₀.key = chunk.1.key ∧ r₀.record.latestForKey = true
      · rw [if_pos hmatch, mergeJoin_getElem? hb _ _ hc.of_cons hrest hr]
        by_cases hj : j = idx'
        · subst hj
          rw [hat'] at hr
          cases hr
          rw [List.getElem?_modify_eq, Option.map_eq_map, Option.map_map, joined_cons_of_eq hmatch.1.symm hmatch.2]
          refine congrArg (Option.map · bufs[j]?) (funext fun buf => ?_)
          exact List.append_assoc buf chunk.2 _
        · rw [List.getElem?_modify_ne _ _ (Ne.symm hj), joined_cons_of_ne (hne hj)]
      · rw [if_neg hmatch, mergeJoin_getElem? hb _ _ hc.of_cons hrest hr]
        by_cases hj : j = idx'
        · subst hj
          rw [hat'] at hr
          cases hr
          by_cases hk : chunk.1.key = r.key
          · have hmark : r.record.latestForKey = false :=
              Bool.eq_false_iff.mpr (fun hl => hmatch ⟨hk.symm, hl⟩)
            rw [joined_unmarked hmark, joined_unmarked hmark]
          · rw [joined_cons_of_ne hk]
        · rw [joined_cons_of_ne (hne hj)]

theorem mergeJoin_length (batch : List RevRecord) : ∀ (chunks : List (ChunkKey × Bytes)) (idx : Nat)
    (bufs : List Bytes), (ListCollector.mergeJoin batch chunks idx bufs).length = bufs.length
  | [], _, _ => rfl
  | chunk :: rest, idx, bufs => by
    rw [ListCollector.mergeJoin]
    split
    · rfl
    · split
      · rw [mergeJoin_length batch rest, List.length_modify]
      · exact mergeJoin_length batch rest _ bufs

/-- batch の record と、merge-join で埋めた buffer の組。 -/
theorem zip_mergeJoin {batch : List RevRecord} (hb : SortedBy RevRecord.key batch)
    {chunks : List (ChunkKey × Bytes)} (hc : chunks.Pairwise (fun a b => a.1.key ≤ b.1.key)) :
    batch.zip (ListCollector.mergeJoin batch chunks 0 (List.replicate batch.length []))
      = batch.map (fun r => (r, joined chunks r)) := by
  refine List.ext_getElem? (fun j => ?_)
  rw [List.getElem?_map]
  cases hr : batch[j]? with
  | none =>
    rw [Option.map_none, List.getElem?_eq_none_iff, List.length_zip, mergeJoin_length,
      List.length_replicate, Nat.min_self]
    exact List.getElem?_eq_none_iff.mp hr
  | some r =>
    have hj := (List.getElem?_eq_some_iff.mp hr).1
    have hbuf := mergeJoin_getElem? hb 0 (List.replicate batch.length []) hc
      (fun c _ j r hj => absurd hj (Nat.not_lt_zero j)) hr
    rw [List.getElem?_replicate, if_pos hj, Option.map_some, List.nil_append] at hbuf
    exact List.getElem?_zip_eq_some.mpr ⟨hr, hbuf⟩

/-! ## 履歴を持つ database -/

/-- database が履歴 `hist` の一部 `recs` を表すこと。生きている鍵の最後の record は `recs` にある。 -/
structure Db.Tracks (db : Db) (recs hist : List RevRecord) : Prop where
  holds : db.Holds recs
  sorted : SortedBy RevRecord.rev hist
  wf : ∀ r ∈ hist, r.Wf
  sub : ∀ r ∈ recs, r ∈ hist
  lastLive : ∀ k r, newest RevRecord.key hist k = some r → r.record.isDelete = false → r ∈ recs
  current : CurrentOf hist db.byKeyCurrent

/-- 生きている鍵の最後の record は、database の中でも鍵の最新である。 -/
theorem Db.Tracks.newest_eq {db : Db} {recs : List RevRecord} (h : db.Tracks recs hist) {k : Key}
    (hn : newest RevRecord.key hist k = some r) (hd : r.record.isDelete = false) :
    newest RevRecord.key recs k = some r := by
  obtain ⟨-, hk, hmax⟩ := (newest_eq_some_iff h.sorted).mp hn
  exact (newest_eq_some_iff h.holds.sorted).mpr
    ⟨h.lastLive k r hn hd, hk, fun b hb hbk => hmax b (h.sub b hb) hbk⟩

/-! ## 値を埋める -/

/-- 走査が選んだ record。索引から読んだもので、印が付く。 -/
def mark (c : RevRecord × Bool) : RevRecord :=
  { c.1.indexed with record := { c.1.indexed.record with latestForKey := c.2 } }

/-- 生きている record の `KeyValue`。 -/
def RevRecord.keyValue (r : RevRecord) : KeyValue where
  key := r.key
  createRevision := versionstampToInt64 r.getCreateRevision
  modRevision := r.revision
  lease := r.record.lease
  value := r.record.value

theorem kvOf_of_live (cfg : Config) {r : RevRecord} (h : r.record.isDelete = false) : kvOf cfg r = r.keyValue := by
  unfold kvOf revRecordToEvent RevRecord.keyValue
  simp [h]

/-- `keysOnly` なら値を落とした record。 -/
def RevRecord.listed (keysOnly : Bool) (r : RevRecord) : RevRecord :=
  if keysOnly then r.indexed else r

theorem kvOf_mark_value (cfg : Config) (c : RevRecord × Bool) (hd : c.1.record.isDelete = false) :
    kvOf cfg { mark c with record := { (mark c).record with value := c.1.record.value } }
      = kvOf cfg c.1 := by
  simp [kvOf, revRecordToEvent, mark, RevRecord.indexed, RevRecord.getCreateRevision, hd]

section Resolve

variable {cfg : Config} {db : Db} {recs : List RevRecord} {c : RevRecord × Bool}

/-- 走査が選んだ record `c` が、この database の値で埋められること。印が立っていれば、
database にその鍵のより新しい record はない。 -/
structure Fillable (recs hist : List RevRecord) (c : RevRecord × Bool) : Prop where
  mem : c.1 ∈ hist
  live : c.1.record.isDelete = false
  newest : c.2 = true → ∀ r ∈ recs, r.key = c.1.key → r.rev ≤ c.1.rev

/-- 空でない buffer は、commit されたときの値である。 -/
theorem joined_eq (h : db.Tracks recs hist) (hc : Fillable recs hist c) {first last : Key}
    (h1 : first ≤ c.1.key) (h2 : c.1.key ≤ last)
    (hne : joined (ByKeyCurrent.rangeForKeys db.byKeyCurrent first last) (mark c) ≠ []) :
    joined (ByKeyCurrent.rangeForKeys db.byKeyCurrent first last) (mark c) = c.1.record.value := by
  have hmark : c.2 = true := by
    by_contra hf
    exact hne (joined_unmarked (r := mark c) (Bool.eq_false_iff.mpr hf))
  have hj : joined (ByKeyCurrent.rangeForKeys db.byKeyCurrent first last) (mark c)
      = joinChunks db.byKeyCurrent.entries c.1.key := by
    rw [joined, if_pos (show (mark c).record.latestForKey = true from hmark)]
    exact joinChunks_rangeForKeys h1 h2
  rw [hj] at hne ⊢
  obtain ⟨r, hn, hd, hval⟩ := h.current.joinChunks_eq hne
  -- chunk を持つ record は database に残っているので、印の立った record より新しくない
  obtain ⟨hrm, hrk, hmax⟩ := (newest_eq_some_iff h.sorted).mp hn
  have heq : r = c.1 := h.sorted.eq_of_index_eq hrm hc.mem
    (le_antisymm (hc.newest hmark r (h.lastLive _ r hn hd) hrk) (hmax c.1 hc.mem rfl))
  rw [hval, heq]

/-- 埋めた record `out` が、`r` の revision と値を持つこと。 -/
structure Filled (cfg : Config) (r out : RevRecord) : Prop where
  rev : out.rev = r.rev
  value : out.record.value = r.record.value
  kv : kvOf cfg out = kvOf cfg r

theorem filled_mark (cfg : Config) (hd : c.1.record.isDelete = false) {value : Bytes}
    (hv : value = c.1.record.value) :
    Filled cfg c.1 { mark c with record := { (mark c).record with value := value } } :=
  ⟨rfl, hv, by rw [hv]; exact kvOf_mark_value cfg c hd⟩

/-- 埋めた値は commit されたときの値である。埋められないのは record が消えたときだけである。 -/
theorem resolve_spec (cfg : Config) (h : db.Tracks recs hist) (hc : Fillable recs hist c) {first last : Key}
    (h1 : first ≤ c.1.key) (h2 : c.1.key ≤ last) :
    (∃ out, ListCollector.resolve db (mark c)
        (joined (ByKeyCurrent.rangeForKeys db.byKeyCurrent first last) (mark c)) = .ok out ∧
      Filled cfg c.1 out) ∨
    (c.1 ∉ recs ∧ ListCollector.resolve db (mark c)
        (joined (ByKeyCurrent.rangeForKeys db.byKeyCurrent first last) (mark c))
      = .error .noRecordsInByRevIterator) := by
  have hsize : (mark c).record.valueSize = c.1.record.value.length := (h.wf c.1 hc.mem).size
  have hrev : (mark c).rev = c.1.rev := rfl
  unfold ListCollector.resolve
  rw [hsize]
  by_cases h0 : c.1.record.value.length = 0
  · rw [if_pos h0]
    exact Or.inl ⟨_, rfl, filled_mark cfg hc.live (List.length_eq_zero_iff.mp h0).symm⟩
  · rw [if_neg h0]
    by_cases hbuf : (joined (ByKeyCurrent.rangeForKeys db.byKeyCurrent first last) (mark c)).length
        = c.1.record.value.length
    · rw [if_pos hbuf]
      have hne : joined (ByKeyCurrent.rangeForKeys db.byKeyCurrent first last) (mark c) ≠ [] :=
        fun hnil => h0 (by rw [← hbuf, hnil]; rfl)
      exact Or.inl ⟨_, rfl, filled_mark cfg hc.live (joined_eq h hc h1 h2 hne)⟩
    · rw [if_neg hbuf]
      by_cases hm : c.1 ∈ recs
      · have hget := ByRevision.get_of_mem h.holds.sorted h.holds.log hm (h.wf c.1 hc.mem).size
        refine Or.inl ⟨c.1.stored, ?_, rfl, rfl, kvOf_stored cfg c.1⟩
        simp only [hrev, hget]
      · refine Or.inr ⟨hm, ?_⟩
        have hne : ∀ r ∈ recs, r.rev ≠ c.1.rev := fun r hr he =>
          hm (by rw [← h.sorted.eq_of_index_eq (h.sub r hr) hc.mem he]; exact hr)
        have hget := ByRevision.get_of_not_mem h.holds.log hne
        simp only [hrev, hget]

end Resolve

end KubeFdb
