import KubeFdb.Properties.Current
import KubeFdb.Properties.LiveKeys

/-!
# 鍵ごとの範囲

driver は「鍵 `k` の下のすべて」を三通りの端点で作る。

* `Sub(k)` — 終わりの `00` に `00` と `FF` を足す（`subRange`）
* `PrefixRange` — 終わりの `00` を 1 進める（`prefixRange`）。`RangeForKeys(k, k)` も同じ端点を使う
* `Replace` の後ろの chunk — 始めは offset、終わりは 1 進めた `00`（`tailRange`）

`Sub(k)` に入るのは `k` の entry だけである。1 進めた端点の下には、`k` に NUL を足して始まる鍵の entry も
入る。`00` は `00 FF` と符号化され、その先頭は `k` の終わりの `00` と区別が付かない。
ほかの鍵に触れないのは、その鍵が `k` に NUL を足して始まらないとき、そのときに限る
（`key_ranges_exact_iff`）。

prefix 全体を読む `listWithCollector` の範囲は、watch と tracker の `doesEventHavePrefix` と同じ鍵を選ぶ
（`scan_range_agrees`）。
-/

namespace KubeFdb

open Tuple

/-- 両端で決まる範囲に入ること。始めを含み、終わりを含まない。 -/
def InRange (range : Bytes × Bytes) (b : Bytes) : Prop := range.1 ≤ b ∧ b < range.2

instance (range : Bytes × Bytes) (b : Bytes) : Decidable (InRange range b) :=
  inferInstanceAs (Decidable (_ ∧ _))

/-- `Sub(k)` の範囲。 -/
def subRange (key : Key) : Bytes × Bytes := (packString key ++ [0], packString key ++ [0xFF])

/-- `RangeForKeys` の範囲。 -/
def keysRange (firstKey lastKey : Key) : Bytes × Bytes :=
  (packString firstKey, (strinc (packString lastKey)).getD [])

/-- 鍵の符号の `fdb.PrefixRange`。 -/
def prefixRange (key : Key) : Bytes × Bytes :=
  (packString key, (strinc (packString key)).getD [])

/-- `Replace` が消す範囲。`n` は新しい値の chunk の数である。 -/
def tailRange (key : Key) (n : Nat) : Bytes × Bytes :=
  (packString key ++ packInt (n * chunkSize), (strinc (packString key)).getD [])

/-! ## driver の範囲 -/

section

variable {m : OrdMap ChunkKey Bytes}

theorem inRange_subRange_iff {key k : Key} {rev : Versionstamp} :
    InRange (subRange key) (packIndexKey (indexKey k rev)) ↔ k = key :=
  append_mem_sub_iff (isElement_packVersionstamp _)

/-- `getLast` は `Sub(k)` の最後の entry を読む。 -/
theorem getLast_eq_subRange (db : Db) (key : Key) :
    db.getLast key = ((db.byKeyAndRevision.entries.filter
      (fun e => decide (InRange (subRange key) (packIndexKey e.1)))).getLast?).map
        ByKeyAndRevision.parseKV := by
  have hin : ∀ e : IndexKey × IndexTuple,
      decide (InRange (subRange key) (packIndexKey e.1)) = decide (e.1.key = key) :=
    fun e => decide_eq_decide.mpr inRange_subRange_iff
  simp only [hin]
  rfl

/-- `/` で終わらない鍵の `Get` は、`Sub(k)` を走査する。 -/
theorem listRange_eq_subRange {key : Key} (h : hasSlashSuffix key = false) :
    listRange key key = .ok (subRange key) := by
  unfold listRange
  simp [h, subRange]

/-- `Clear` は `PrefixRange` の entry を消す。 -/
theorem mem_clear_iff {key : Key} {e : ChunkKey × Bytes} :
    e ∈ (ByKeyCurrent.clear m key).entries ↔
      e ∈ m.entries ∧ ¬ InRange (prefixRange key) (ByKeyCurrent.packChunkKey e.1) :=
  mem_clearRange

theorem mem_rangeForKeys_iff {firstKey lastKey : Key} {e : ChunkKey × Bytes} :
    e ∈ ByKeyCurrent.rangeForKeys m firstKey lastKey ↔
      e ∈ m.entries ∧ InRange (keysRange firstKey lastKey) (ByKeyCurrent.packChunkKey e.1) := by
  unfold ByKeyCurrent.rangeForKeys
  rw [List.mem_filter, Bool.and_eq_true, decide_eq_true_eq, decide_eq_true_eq]
  rfl

theorem inRange_prefixRange_iff {key k : Key} {o : Nat} :
    InRange (prefixRange key) (ByKeyCurrent.packChunkKey (currentKey k o)) ↔
      k = key ∨ key ++ [0] <+: k := by
  unfold prefixRange
  rw [strinc_packString, Option.getD_some]
  exact append_mem_prefixRange_iff (isElement_packInt o)

theorem inRange_tailRange_iff {key k : Key} {n o : Nat} (hne : k ≠ key) :
    InRange (tailRange key n) (ByKeyCurrent.packChunkKey (currentKey k o)) ↔ key ++ [0] <+: k := by
  unfold tailRange
  rw [strinc_packString, Option.getD_some]
  exact append_mem_tail_of_ne (isElement_packInt _) (isElement_packInt o) hne

/-- `Replace` が消すのは、`prefixRange` か `tailRange` の entry である。 -/
theorem mem_replaceBase {key k : Key} {value : Bytes} {size : Int} {o : Nat} {b : Bytes}
    (hne : k ≠ key) (hext : ¬ key ++ [0] <+: k) :
    (currentKey k o, b) ∈ (replaceBase m key value size).entries ↔ (currentKey k o, b) ∈ m.entries := by
  unfold replaceBase
  split
  · rw [mem_clear_iff]
    exact and_iff_left fun h => (inRange_prefixRange_iff.mp h).elim hne hext
  · split
    · have hout : ¬ InRange (tailRange key (numChunks value.length))
          (ByKeyCurrent.packChunkKey (currentKey k o)) := fun h => hext ((inRange_tailRange_iff hne).mp h)
      rw [mem_clearRange]
      exact and_iff_left hout
    · rfl

end

/-! ## ほかの鍵 -/

/-- 鍵 `k` の範囲が鍵 `other` の entry を含まず、`k` の読み出しが `other` の entry を返さず、`k` の `Clear` と
`Replace` が `other` の chunk を変えないこと。 -/
structure KeyRangesExact (k other : Key) : Prop where
  sub : ∀ rev, ¬ InRange (subRange k) (packIndexKey (indexKey other rev))
  clearRange : ∀ o, ¬ InRange (prefixRange k) (ByKeyCurrent.packChunkKey (currentKey other o))
  tail : ∀ n o, ¬ InRange (tailRange k n) (ByKeyCurrent.packChunkKey (currentKey other o))
  rangeForKeys : ∀ o, ¬ InRange (keysRange k k) (ByKeyCurrent.packChunkKey (currentKey other o))
  getLast : ∀ db r, Db.getLast db k = some r → r.key ≠ other
  get : hasSlashSuffix k = false → ∀ range, listRange k k = .ok range →
    ∀ rev, ¬ InRange range (packIndexKey (indexKey other rev))
  chunks : ∀ m, ∀ e ∈ ByKeyCurrent.rangeForKeys m k k, e.1.key ≠ other
  clear : ∀ m o b, (currentKey other o, b) ∈ (ByKeyCurrent.clear m k).entries ↔
    (currentKey other o, b) ∈ m.entries
  replace : ∀ m value prevSize o b,
    (currentKey other o, b) ∈ (ByKeyCurrent.replace m k value prevSize).entries ↔
      (currentKey other o, b) ∈ m.entries

/-- 鍵ごとの範囲がほかの鍵を含まないのは、ほかの鍵が NUL を足して始まらないときである。 -/
theorem key_ranges_exact_iff (k other : Key) (hne : other ≠ k) :
    KeyRangesExact k other ↔ ¬ k ++ [0] <+: other := by
  constructor
  · intro h hext
    exact h.clearRange 0 (inRange_prefixRange_iff.mpr (Or.inr hext))
  · intro hext
    have houtside : ∀ o, ¬ InRange (prefixRange k) (ByKeyCurrent.packChunkKey (currentKey other o)) :=
      fun o h => (inRange_prefixRange_iff.mp h).elim hne hext
    have hsub : ∀ rev, ¬ InRange (subRange k) (packIndexKey (indexKey other rev)) :=
      fun rev h => hne (inRange_subRange_iff.mp h)
    refine ⟨hsub, houtside, fun n o h => hext ((inRange_tailRange_iff hne).mp h), houtside,
      fun db r hr => ?_, fun hslash range hr => ?_, fun m e he hk => ?_, fun m o b => ?_,
      fun m value prevSize o b => ?_⟩
    · rw [getLast_eq_subRange] at hr
      obtain ⟨e, he, rfl⟩ := Option.map_eq_some_iff.mp hr
      have hin := of_decide_eq_true (List.mem_filter.mp (List.mem_of_getLast? he)).2
      exact fun hk => hne (hk.symm.trans (inRange_subRange_iff.mp hin))
    · rw [listRange_eq_subRange hslash] at hr
      cases hr
      exact hsub
    · subst hk
      exact houtside e.1.offset (mem_rangeForKeys_iff.mp he).2
    · rw [mem_clear_iff]
      exact and_iff_left (houtside o)
    · rw [mem_replace, mem_replaceBase hne hext]
      constructor
      · rintro (⟨hc, -⟩ | ⟨hm, -⟩)
        · exact absurd hc hne
        · exact hm
      · exact fun hm => Or.inr ⟨hm, fun c _ hc => hne hc.1⟩

/-- 普通の文字で延ばした鍵には触れない。 -/
theorem key_ranges_exact_of_slash : ([0x61, 0x2F] : Key) ≠ [0x61] ∧
    KeyRangesExact [0x61] [0x61, 0x2F] :=
  ⟨by decide, (key_ranges_exact_iff [0x61] [0x61, 0x2F] (by decide)).mpr (by decide)⟩

/-- 鍵 `a` を消すと、鍵 `a` に NUL を足した鍵の chunk も消える。 -/
theorem clear_removes_extended_key :
    ¬ KeyRangesExact [0x61] [0x61, 0] ∧
      ∃ m : OrdMap ChunkKey Bytes, (currentKey [0x61, 0] 0, [1]) ∈ m.entries ∧
        (ByKeyCurrent.clear m [0x61]).entries = [] := by
  have hm : (currentKey [0x61, 0] 0, [1]) ∈
      ((OrdMap.empty : OrdMap ChunkKey Bytes).set (currentKey [0x61, 0] 0) [1]).entries :=
    OrdMap.mem_set.mpr (Or.inl rfl)
  have hclear : (ByKeyCurrent.clear
      ((OrdMap.empty : OrdMap ChunkKey Bytes).set (currentKey [0x61, 0] 0) [1]) [0x61]).entries = [] := by
    decide +kernel
  refine ⟨fun h => ?_, _, hm, hclear⟩
  have hkept := (h.clear _ 0 [1]).mpr hm
  rw [hclear] at hkept
  exact absurd hkept List.not_mem_nil

/-! ## prefix の鍵 -/

/-- prefix 全体の `List` と `Count` の走査が、鍵の索引の entry を読むこと。 -/
def ScansKey (prefix_ key : Key) : Prop :=
  ∃ range, listRange prefix_ prefix_ = .ok range ∧
    ∀ rev, InRange range (packIndexKey (indexKey key rev))

/-- `Count` の tracker に、鍵の event で動く entry があること。 -/
def TracksKey (prefix_ key : Key) : Prop :=
  ∃ (event : Event) (entry : CountEntry), event.kv.key = key ∧ entry.apply event prefix_ ≠ entry

/-- `Watch` が鍵の event を残すこと。 -/
def WatchesKey (prefix_ key : Key) : Prop :=
  ∀ event : Event, event.kv.key = key → innerWatchEvents (watchPrefix prefix_) [event] = [event]

/-- 範囲に入るかどうかは `doesEventHavePrefix` と同じである。 -/
theorem inRange_listRange_iff {prefix_ : Key} {range : Bytes × Bytes}
    (h : listRange prefix_ prefix_ = .ok range) (key : Key) (rev : Versionstamp) :
    InRange range (packIndexKey (indexKey key rev)) ↔ doesEventHavePrefix key prefix_ = true := by
  rw [← inListRange_self_eq]
  have hin := mem_listRange_iff h (indexKey key rev)
  rw [← show inListRange prefix_ prefix_ (indexKey key rev).key = inListRange prefix_ prefix_ key
    from rfl, ← hin, Bool.and_eq_true, decide_eq_true_eq, decide_eq_true_eq]
  rfl

theorem scansKey_iff {prefix_ key : Key} :
    ScansKey prefix_ key ↔ doesEventHavePrefix key prefix_ = true := by
  constructor
  · rintro ⟨range, hr, hin⟩
    exact (inRange_listRange_iff hr key dummyVersionstamp).mp (hin _)
  · intro h
    obtain ⟨range, hr⟩ := listRange_self prefix_
    exact ⟨range, hr, fun rev => (inRange_listRange_iff hr key rev).mpr h⟩

theorem tracksKey_iff {prefix_ key : Key} :
    TracksKey prefix_ key ↔ doesEventHavePrefix key prefix_ = true := by
  constructor
  · rintro ⟨event, entry, rfl, hne⟩
    by_contra hm
    refine hne (if_pos ?_)
    simp [Bool.eq_false_of_not_eq_true hm]
  · intro h
    refine ⟨⟨true, false, ⟨key, 0, 1, 0, []⟩, none⟩, ⟨0, 0⟩, rfl, ?_⟩
    simp [CountEntry.apply, h]

theorem watchesKey_iff {prefix_ key : Key} :
    WatchesKey prefix_ key ↔ doesEventHavePrefix key (watchPrefix prefix_) = true := by
  unfold WatchesKey innerWatchEvents
  constructor
  · intro h
    have hkept := h ⟨true, false, ⟨key, 0, 1, 0, []⟩, none⟩ rfl
    exact List.filter_eq_self.mp hkept _ List.mem_cons_self
  · rintro h event rfl
    exact List.filter_eq_self.mpr fun e he => by rw [List.mem_singleton.mp he]; exact h

/-- 索引の範囲と event の絞り込みは同じ鍵を選ぶ。`Watch` は NUL 一文字の prefix を `/` と読んでから絞り込む。 -/
theorem scan_range_agrees (prefix_ key : Key) :
    (∃ range, listRange prefix_ prefix_ = .ok range ∧ ∀ rev,
      InRange range (packIndexKey (indexKey key rev)) ↔ doesEventHavePrefix key prefix_ = true) ∧
    (ScansKey prefix_ key ↔ TracksKey prefix_ key) ∧
    (ScansKey (watchPrefix prefix_) key ↔ WatchesKey prefix_ key) ∧
    (prefix_ ≠ [0] → watchPrefix prefix_ = prefix_) := by
  obtain ⟨range, hr⟩ := listRange_self prefix_
  refine ⟨⟨range, hr, inRange_listRange_iff hr key⟩, ?_, ?_, fun h => if_neg h⟩
  · rw [scansKey_iff, tracksKey_iff]
  · rw [scansKey_iff, watchesKey_iff]

/-- NUL 一文字の prefix の watch は `/` の下の鍵を流し、走査と tracker はその鍵を見ない。 -/
theorem null_prefix_watches_slash :
    WatchesKey [0] [0x2F] ∧ ¬ ScansKey [0] [0x2F] ∧ ¬ TracksKey [0] [0x2F] := by
  rw [watchesKey_iff, scansKey_iff, tracksKey_iff]
  decide

end KubeFdb
