import KubeFdb.Properties.Represents
import KubeFdb.Driver.Compact

/-!
# compaction の batch の仕様

`Compact` の一つの batch を record の列の上で述べる（`compact_batch`）。

batch は、前の batch が読み終えた revision より後で `endRev` までの record を古い順に
`n + 1` 個まで読む（`compactVisits`）。読んだ record のうち、鍵のより新しい record が
残っているものと tombstone を消す（`compactRecs`）。

record を一つ消しても、それより新しい record の判定は変わらない。したがって
batch の途中の database を見て決めることと、batch の始めの列を見て決めることは同じである。
-/

namespace KubeFdb

open Tuple

/-! ## 列の上の compaction -/

/-- 鍵のより新しい record が列にあること。 -/
def superseded (recs : List RevRecord) (r : RevRecord) : Bool :=
  recs.any (fun r' => decide (r'.key = r.key) && decide (r.rev < r'.rev))

/-- compaction が読んだら消す record。 -/
def discards (recs : List RevRecord) (r : RevRecord) : Bool :=
  superseded recs r || r.record.isDelete

/-- `visited` を読んだ compaction の後の列。 -/
def compactRecs (recs visited : List RevRecord) : List RevRecord :=
  recs.filter (fun r => !(decide (r ∈ visited) && discards recs r))

/-- `begin_` より後で `endRev` までの record。 -/
def compactTodo (recs : List RevRecord) (begin_ : Option Versionstamp) (endRev : Int) :
    List RevRecord :=
  recs.filter (fun r =>
    decide (∀ b ∈ begin_, b < r.rev) && decide (r.rev ≤ int64ToVersionstamp endRev))

/-- 大きさ `n` の batch が読む record。 -/
def compactVisits (recs : List RevRecord) (begin_ : Option Versionstamp) (endRev : Int) (n : Nat) :
    List RevRecord :=
  (compactTodo recs begin_ endRev).take (n + 1)

variable {recs : List RevRecord} {r : RevRecord}

theorem superseded_iff :
    superseded recs r = true ↔ ∃ r' ∈ recs, r'.key = r.key ∧ r.rev < r'.rev := by
  simp [superseded]

theorem discards_iff : discards recs r = true ↔
    (∃ r' ∈ recs, r'.key = r.key ∧ r.rev < r'.rev) ∨ r.record.isDelete = true := by
  rw [discards, Bool.or_eq_true, superseded_iff]

theorem mem_compactRecs {visited : List RevRecord} :
    r ∈ compactRecs recs visited ↔ r ∈ recs ∧ ¬ (r ∈ visited ∧ discards recs r = true) := by
  simp [compactRecs, imp_iff_not_or]

theorem mem_compactTodo {begin_ : Option Versionstamp} {endRev : Int} :
    r ∈ compactTodo recs begin_ endRev ↔
      r ∈ recs ∧ (∀ b ∈ begin_, b < r.rev) ∧ r.rev ≤ int64ToVersionstamp endRev := by
  simp [compactTodo]

theorem mem_of_mem_compactVisits {begin_ : Option Versionstamp} {endRev : Int} {n : Nat}
    (h : r ∈ compactVisits recs begin_ endRev n) : r ∈ compactTodo recs begin_ endRev :=
  List.mem_of_mem_take h

theorem compactTodo_sorted (h : SortedBy RevRecord.rev recs) (begin_ : Option Versionstamp)
    (endRev : Int) : SortedBy RevRecord.rev (compactTodo recs begin_ endRev) :=
  h.filter _

theorem compactVisits_sorted (h : SortedBy RevRecord.rev recs) (begin_ : Option Versionstamp)
    (endRev : Int) (n : Nat) : SortedBy RevRecord.rev (compactVisits recs begin_ endRev n) :=
  (compactTodo_sorted h begin_ endRev).sublist (List.take_sublist _ _)

/-- 読んだ record より古い record は、読む範囲にあれば読まれている。 -/
theorem mem_compactVisits_of_le (hs : SortedBy RevRecord.rev recs) {begin_ : Option Versionstamp}
    {endRev : Int} {n : Nat} {t : RevRecord} (ht : t ∈ compactVisits recs begin_ endRev n)
    (hr : r ∈ compactTodo recs begin_ endRev) (hle : r.rev ≤ t.rev) :
    r ∈ compactVisits recs begin_ endRev n := by
  rw [← List.take_append_drop (n + 1) (compactTodo recs begin_ endRev)] at hr
  rcases List.mem_append.mp hr with hr | hr
  · exact hr
  · exact absurd ((compactTodo_sorted hs begin_ endRev).take_lt_drop (n + 1) ht hr) (not_lt.mpr hle)

/-- record を一つ読んだときの列。 -/
def compactStep (recs : List RevRecord) (r : RevRecord) : List RevRecord :=
  if discards recs r then recs.filter (fun r' => decide (r'.rev ≠ r.rev)) else recs

theorem mem_compactStep {r' : RevRecord} :
    r' ∈ compactStep recs r ↔ r' ∈ recs ∧ ¬ (discards recs r = true ∧ r'.rev = r.rev) := by
  unfold compactStep
  cases hd : discards recs r with
  | true => simp
  | false => simp

theorem compactStep_sorted (h : SortedBy RevRecord.rev recs) (r : RevRecord) :
    SortedBy RevRecord.rev (compactStep recs r) := by
  unfold compactStep
  split
  · exact h.filter _
  · exact h

/-- 新しい record の判定は、古い record を読んでも変わらない。 -/
theorem discards_compactStep {r' : RevRecord} (h : r.rev < r'.rev) :
    discards (compactStep recs r) r' = discards recs r' := by
  rw [Bool.eq_iff_iff, discards_iff, discards_iff]
  refine or_congr_left ⟨?_, ?_⟩
  · rintro ⟨s, hs, hk, hlt⟩
    exact ⟨s, (mem_compactStep.mp hs).1, hk, hlt⟩
  · rintro ⟨s, hs, hk, hlt⟩
    exact ⟨s, mem_compactStep.mpr ⟨hs, fun hc => absurd hc.2 (h.trans hlt).ne'⟩, hk, hlt⟩

/-- 古い順に一つずつ読むことは、始めの列で判定してまとめて消すことと同じである。 -/
theorem foldl_compactStep : ∀ {visited recs : List RevRecord}, SortedBy RevRecord.rev recs →
    SortedBy RevRecord.rev visited → (∀ r ∈ visited, r ∈ recs) →
    visited.foldl compactStep recs = compactRecs recs visited
  | [], recs, _, _, _ => by simp [compactRecs]
  | r :: visited, recs, hs, hv, hm => by
    have hm' : ∀ r' ∈ visited, r' ∈ compactStep recs r := fun r' hr' =>
      mem_compactStep.mpr ⟨hm r' (List.mem_cons_of_mem _ hr'),
        fun hc => absurd hc.2 (hv.lt_of_mem hr').ne'⟩
    rw [List.foldl_cons, foldl_compactStep (compactStep_sorted hs r) hv.tail hm']
    refine SortedBy.eq_of_mem_iff ((compactStep_sorted hs r).filter _) (hs.filter _) ?_
    intro s
    rw [mem_compactRecs, mem_compactRecs, mem_compactStep, List.mem_cons]
    constructor
    · rintro ⟨⟨hsr, hne⟩, hnd⟩
      refine ⟨hsr, ?_⟩
      rintro ⟨rfl | hsv, hd⟩
      · exact hne ⟨hd, rfl⟩
      · exact hnd ⟨hsv, by rw [discards_compactStep (hv.lt_of_mem hsv)]; exact hd⟩
    · rintro ⟨hsr, hnd⟩
      refine ⟨⟨hsr, ?_⟩, ?_⟩
      · rintro ⟨hd, he⟩
        have heq : s = r := hs.eq_of_index_eq hsr (hm r List.mem_cons_self) he
        exact hnd ⟨Or.inl heq, by rw [heq]; exact hd⟩
      · rintro ⟨hsv, hd⟩
        rw [discards_compactStep (hv.lt_of_mem hsv)] at hd
        exact hnd ⟨Or.inr hsv, hd⟩

/-! ## 走査の範囲 -/

/-- `cut` の header の次で切れた iterator に残る entry。 -/
def cutEntries (cut : Versionstamp) (r : RevRecord) : RevIterator :=
  if r.rev = cut then [(headerKey r.rev, .header (ByRevision.recordToTuple r.record))]
  else logEntries r

theorem cutEntries_subset {cut : Versionstamp} {e : RevKey × RevValue}
    (h : e ∈ cutEntries cut r) : e ∈ logEntries r := by
  unfold cutEntries at h
  split at h
  · rw [List.mem_singleton.mp h]
    exact List.mem_cons_self
  · exact h

/-- 読み終えた record の次の鍵より後ろにあるのは、revision のより大きい record の entry である。 -/
theorem chunkKey_max_lt_iff (hbound : r.record.value.length ≤ maxRecordSize) {b : Versionstamp}
    {e : RevKey × RevValue} (he : e ∈ logEntries r) : chunkKey b maxInt64 < e.1 ↔ b < r.rev := by
  constructor
  · intro hlt
    rcases List.mem_cons.mp he with rfl | he
    · rcases Prod.Lex.lt_iff.mp hlt with h | ⟨-, h⟩
      · exact h
      · exact absurd h not_lt_bot
    · obtain ⟨c, hc, rfl⟩ := List.mem_map.mp he
      rcases Prod.Lex.lt_iff.mp hlt with h | ⟨-, h⟩
      · exact h
      · have h1 : maxInt64 < c.1 := WithBot.coe_lt_coe.mp h
        have h2 := offset_lt hc
        unfold maxInt64 at h1
        unfold maxRecordSize at hbound
        omega
  · intro hlt
    refine revKey_lt_of_rev_lt ?_
    rw [logEntries_rev he]
    exact hlt

theorem filter_le_headerKey (cut : Versionstamp) (r : RevRecord) :
    (logEntries r).filter (fun e => decide (e.1 ≤ headerKey cut))
      = if r.rev ≤ cut then cutEntries cut r else [] := by
  rcases lt_trichotomy r.rev cut with h | h | h
  · rw [if_pos h.le, cutEntries, if_neg h.ne, List.filter_eq_self]
    intro e he
    refine decide_eq_true (revKey_lt_of_rev_lt ?_).le
    rw [logEntries_rev he]
    exact h
  · rw [if_pos h.le, cutEntries, if_pos h, logEntries, List.filter_cons_of_pos (by simp [h]),
      List.filter_eq_nil_iff.mpr]
    intro e he
    obtain ⟨c, -, rfl⟩ := List.mem_map.mp he
    simpa [h] using headerKey_lt_chunkKey cut c.1
  · rw [if_neg (not_le.mpr h), List.filter_eq_nil_iff]
    intro e he
    have hlt : headerKey cut < e.1 := revKey_lt_of_rev_lt (by rw [logEntries_rev he]; exact h)
    simpa using hlt

theorem flatMap_filter_le_headerKey (cut : Versionstamp) (recs : List RevRecord) :
    (recs.flatMap logEntries).filter (fun e => decide (e.1 ≤ headerKey cut))
      = (recs.filter (fun r => decide (r.rev ≤ cut))).flatMap (cutEntries cut) := by
  induction recs with
  | nil => rfl
  | cons r rest ih =>
    rw [List.flatMap_cons, List.filter_append, filter_le_headerKey, ih]
    by_cases h : r.rev ≤ cut
    · rw [if_pos h, List.filter_cons_of_pos (by simpa using h), List.flatMap_cons]
    · rw [if_neg h, List.filter_cons_of_neg (by simpa using h), List.nil_append]

/-- 読み終えた revision の後ろを読むことは、列で revision を比べることと同じである。 -/
theorem entriesAfter_flatMap {f : RevRecord → RevIterator}
    (hf : ∀ r, ∀ e ∈ f r, e ∈ logEntries r) (begin_ : Option Versionstamp) :
    ∀ {recs : List RevRecord}, (∀ r ∈ recs, r.record.value.length ≤ maxRecordSize) →
    entriesAfter (begin_.map (chunkKey · maxInt64)) (recs.flatMap f)
      = (recs.filter (fun r => decide (∀ b ∈ begin_, b < r.rev))).flatMap f := by
  intro recs hw
  cases begin_ with
  | none => simp [entriesAfter]
  | some b =>
    show (recs.flatMap f).filter (fun e => decide (chunkKey b maxInt64 < e.1)) = _
    induction recs with
    | nil => rfl
    | cons r rest ih =>
      have hr := hw r List.mem_cons_self
      rw [List.flatMap_cons, List.filter_append, ih (fun s hs => hw s (List.mem_cons_of_mem _ hs))]
      by_cases h : b < r.rev
      · rw [List.filter_cons_of_pos (by simpa using h), List.flatMap_cons,
          List.filter_eq_self.mpr]
        intro e he
        exact decide_eq_true ((chunkKey_max_lt_iff hr (hf r e he)).mpr h)
      · rw [List.filter_cons_of_neg (by simpa using h), List.filter_eq_nil_iff.mpr,
          List.nil_append]
        intro e he
        rw [decide_eq_true_eq, chunkKey_max_lt_iff hr (hf r e he)]
        exact h

/-- `Compact` の範囲は、読む record を並べたものである。 -/
theorem compactRange_eq {db : Db} (h : db.Holds recs) (begin_ : Option Versionstamp)
    (endRev : Int) :
    compactRange endRev db (begin_.map (chunkKey · maxInt64))
      = (compactTodo recs begin_ endRev).flatMap (cutEntries (int64ToVersionstamp endRev)) := by
  unfold compactRange
  rw [h.log, flatMap_filter_le_headerKey, entriesAfter_flatMap (fun r e => cutEntries_subset)
    begin_ (fun r hr => (h.wf r (List.mem_of_mem_filter hr)).bound), List.filter_filter]
  rfl

/-! ## 残っている header -/

/-- entry が header のときの revision と内容。 -/
def headerOf : RevKey × RevValue → Option (Versionstamp × RevTuple)
  | (k, .header t) => some (k.rev, t)
  | (_, .chunk _) => none

/-- `Compact` の範囲に残っている header。 -/
def unreadHeaders (endRev : Int) (db : Db) (begin_ : Option RevKey) :
    List (Versionstamp × RevTuple) :=
  (compactRange endRev db begin_).filterMap headerOf

theorem filterMap_headerOf_chunks (rev : Versionstamp) (l : List (Nat × Bytes)) :
    (l.map (fun c => (chunkKey rev c.1, RevValue.chunk c.2))).filterMap headerOf = [] := by
  induction l with
  | nil => rfl
  | cons c l ih => rw [List.map_cons, List.filterMap_cons_none rfl, ih]

theorem filterMap_headerOf_logEntries (r : RevRecord) :
    (logEntries r).filterMap headerOf = [(r.rev, ByRevision.recordToTuple r.record)] := by
  unfold logEntries
  rw [List.filterMap_cons_some (f := headerOf) (b := (r.rev, ByRevision.recordToTuple r.record)) rfl,
    filterMap_headerOf_chunks]

theorem filterMap_headerOf_cutEntries (cut : Versionstamp) (r : RevRecord) :
    (cutEntries cut r).filterMap headerOf = [(r.rev, ByRevision.recordToTuple r.record)] := by
  unfold cutEntries
  split
  · rfl
  · exact filterMap_headerOf_logEntries r

/-- record ごとの entry の列の header は、record に一つずつである。 -/
theorem filterMap_headerOf_flatMap {f : RevRecord → List (RevKey × RevValue)}
    (hf : ∀ r, (f r).filterMap headerOf = [(r.rev, ByRevision.recordToTuple r.record)])
    (l : List RevRecord) :
    (l.flatMap f).filterMap headerOf
      = l.map (fun r => (r.rev, ByRevision.recordToTuple r.record)) := by
  induction l with
  | nil => rfl
  | cons r l ih =>
    rw [List.flatMap_cons, List.filterMap_append, hf, ih]
    rfl

/-- 残っている header は、残っている record のものである。 -/
theorem unreadHeaders_eq {db : Db} (h : db.Holds recs) (begin_ : Option Versionstamp) (endRev : Int) :
    unreadHeaders endRev db (begin_.map (chunkKey · maxInt64))
      = (compactTodo recs begin_ endRev).map
        (fun r => (r.rev, ByRevision.recordToTuple r.record)) := by
  unfold unreadHeaders
  rw [compactRange_eq h]
  exact filterMap_headerOf_flatMap (filterMap_headerOf_cutEntries _) _

/-- 読んでも消えない record は、生きていて鍵の最新である。 -/
theorem discards_eq_false_iff {db : Db} (h : db.Holds recs) (hr : r ∈ recs) :
    discards recs r = false ↔
      r.record.isDelete = false ∧ ∀ last ∈ db.getLast r.key, last.rev = r.rev := by
  rw [getLast_rev_iff h hr, newest_eq_some_iff h.sorted, discards, Bool.or_eq_false_iff, and_comm]
  refine and_congr_right fun _ => ?_
  rw [← Bool.not_eq_true, superseded_iff]
  constructor
  · intro hno
    exact ⟨hr, rfl, fun r' hr' hk => not_lt.mp fun hlt => hno ⟨r', hr', hk, hlt⟩⟩
  · rintro ⟨-, -, hmax⟩ ⟨r', hr', hk, hlt⟩
    exact absurd (hmax r' hr' hk) (not_le.mpr hlt)

/-! ## next -/

/-- log と索引のほかは同じであること。 -/
structure Db.SameRest (db db' : Db) : Prop where
  version : db'.version = db.version
  byKeyCurrent : db'.byKeyCurrent = db.byKeyCurrent
  watch : db'.watch = db.watch
  compactRev : db'.compactRev = db.compactRev
  latestRev : db'.latestRev = db.latestRev

theorem Db.SameRest.refl (db : Db) : db.SameRest db := ⟨rfl, rfl, rfl, rfl, rfl⟩

theorem Db.SameRest.trans {a b c : Db} (h : a.SameRest b) (h' : b.SameRest c) : a.SameRest c :=
  ⟨h'.version.trans h.version, h'.byKeyCurrent.trans h.byKeyCurrent, h'.watch.trans h.watch,
    h'.compactRev.trans h.compactRev, h'.latestRev.trans h.latestRev⟩

/-- 切れた iterator の先頭からも、record の鍵と revision と tombstone の印は読める。 -/
theorem getFromIterator_cutEntries {cut : Versionstamp} {rest : List RevRecord}
    (hs : SortedBy RevRecord.rev (r :: rest)) (hcut : ∀ s ∈ rest, s.rev ≤ cut)
    (hw : r.Wf) :
    ∃ r', ByRevision.getFromIterator ((r :: rest).flatMap (cutEntries cut))
        = .ok (some r', rest.flatMap (cutEntries cut)) ∧
      r'.rev = r.rev ∧ r'.record.key = r.record.key ∧ r'.record.isDelete = r.record.isDelete := by
  rw [List.flatMap_cons]
  by_cases hr : r.rev = cut
  · have hnil : rest = [] := by
      refine List.eq_nil_iff_forall_not_mem.mpr (fun s hm => ?_)
      exact absurd (hcut s hm) (not_le.mpr (hr ▸ hs.lt_of_mem hm))
    rw [hnil, cutEntries, if_pos hr, List.flatMap_nil, List.append_nil, getFromIterator_header]
    exact ⟨_, rfl, rfl, rfl, rfl⟩
  · rw [cutEntries, if_neg hr, getFromIterator_logEntries hw.size]
    exact ⟨_, rfl, rfl, rfl, rfl⟩

variable {db : Db}

/-- 列にある record が鍵の最新でないことと、より新しい record があることは同じである。 -/
theorem newest_rev_ne_iff (hs : SortedBy RevRecord.rev recs) (hr : r ∈ recs) {last : RevRecord}
    (hl : newest RevRecord.key recs r.key = some last) :
    last.rev ≠ r.rev ↔ superseded recs r = true := by
  obtain ⟨hlm, hlk, hmax⟩ := (newest_eq_some_iff hs).mp hl
  rw [superseded_iff]
  constructor
  · intro hne
    exact ⟨last, hlm, hlk, lt_of_le_of_ne (hmax r hr rfl) hne.symm⟩
  · rintro ⟨s, hsm, hsk, hlt⟩
    exact (hlt.trans_le (hmax s hsm hsk)).ne'

theorem holds_delete (h : db.Holds recs) (hr : r ∈ recs) :
    Db.Holds { db with
      byKeyAndRevision := ByKeyAndRevision.delete db.byKeyAndRevision r.key r.rev
      byRevision := ByRevision.delete db.byRevision r.rev }
      (recs.filter (fun r' => decide (r'.rev ≠ r.rev))) where
  sorted := h.sorted.filter _
  log := ByRevision.delete_entries h.log r.rev
  index := fun e => by
    rw [ByKeyAndRevision.delete, OrdMap.mem_filter, h.index]
    constructor
    · rintro ⟨⟨s, hs, rfl⟩, hne⟩
      refine ⟨s, List.mem_filter.mpr ⟨hs, decide_eq_true (fun hc => ?_)⟩, rfl⟩
      rw [h.sorted.eq_of_index_eq hs hr hc] at hne
      exact of_decide_eq_true hne rfl
    · rintro ⟨s, hs, rfl⟩
      obtain ⟨hs, hne⟩ := List.mem_filter.mp hs
      exact ⟨⟨s, hs, rfl⟩, decide_eq_true (fun hc => of_decide_eq_true hne
        (congrArg IndexKey.rev hc))⟩
  wf := fun s hs => h.wf s (List.mem_of_mem_filter hs)

/-- `next` は record を一つ読み、列を `compactStep` だけ進める。 -/
theorem compact_next {cut : Versionstamp} {rest : List RevRecord} (c : CompactProcessor)
    (h : db.Holds recs) (hr : r ∈ recs) (hs : SortedBy RevRecord.rev (r :: rest))
    (hcut : ∀ s ∈ rest, s.rev ≤ cut) :
    ∃ db', CompactProcessor.next c db ((r :: rest).flatMap (cutEntries cut))
        = (⟨r.rev⟩, db', .ok (rest.flatMap (cutEntries cut), some (chunkKey r.rev maxInt64), true)) ∧
      db'.Holds (compactStep recs r) ∧ db.SameRest db' := by
  obtain ⟨r', hget, hrev, hkey, hdel⟩ := getFromIterator_cutEntries hs hcut (h.wf r hr)
  obtain ⟨last, hlast⟩ := exists_newest RevRecord.key hr rfl
  have hgl : db.getLast r'.key = some last.indexed := by
    rw [getLast_eq h, RevRecord.key, hkey, hlast]
    rfl
  have hcond : (last.indexed.rev ≠ r'.rev ∨ r'.record.isDelete = true) ↔ discards recs r = true := by
    rw [hrev, hdel, discards, Bool.or_eq_true, ← newest_rev_ne_iff h.sorted hr hlast]
    rfl
  unfold CompactProcessor.next
  rw [hget]
  simp only [hgl]
  cases hd : discards recs r with
  | true =>
    rw [if_pos (hcond.mpr hd), RevRecord.key, hkey, hrev, compactStep, if_pos hd]
    exact ⟨_, rfl, holds_delete h hr, ⟨rfl, rfl, rfl, rfl, rfl⟩⟩
  | false =>
    rw [if_neg (fun hc => absurd (hcond.mp hc) (by simp [hd])), hrev, compactStep,
      if_neg (by simp [hd])]
    exact ⟨_, rfl, h, Db.SameRest.refl db⟩

/-! ## batch -/

/-- 読んだ record の最後の revision。 -/
def lastVisited (visited : List RevRecord) : Option Versionstamp :=
  visited.getLast?.map RevRecord.rev

theorem lastVisited_cons (r : RevRecord) (visited : List RevRecord) :
    lastVisited (r :: visited) = some ((lastVisited visited).getD r.rev) := by
  unfold lastVisited
  rw [List.getLast?_cons, Option.map_some]
  cases visited.getLast? with
  | none => rfl
  | some s => rfl

theorem lastVisited_append_of_ne_nil (read : List RevRecord) {t : List RevRecord} (ht : t ≠ []) :
    lastVisited (read ++ t) = lastVisited t := by
  unfold lastVisited
  rw [List.getLast?_append_of_ne_nil _ ht]

/-- 最後に読んだ revision より後ろの record は、まだ読んでいない列である。 -/
theorem filter_lastVisited {read rest : List RevRecord} (hs : SortedBy RevRecord.rev (read ++ rest)) :
    (read ++ rest).filter (fun r => decide (∀ b ∈ lastVisited read, b < r.rev)) = rest := by
  obtain ⟨hread, -, hlt⟩ := SortedBy.append_iff.mp hs
  have hnone : read.filter (fun r => decide (∀ b ∈ lastVisited read, b < r.rev)) = [] := by
    refine List.filter_eq_nil_iff.mpr fun r hr hafter => ?_
    cases hl : read.getLast? with
    | none => rw [List.getLast?_eq_none_iff.mp hl] at hr; exact absurd hr List.not_mem_nil
    | some z =>
      have hle := (hread.getLast?_eq_some_iff.mp hl).2 r hr
      exact absurd (of_decide_eq_true hafter z.rev (by simp [lastVisited, hl])) (not_lt.mpr hle)
  have hall : rest.filter (fun r => decide (∀ b ∈ lastVisited read, b < r.rev)) = rest := by
    refine List.filter_eq_self.mpr fun r hr => decide_eq_true fun b hb => ?_
    obtain ⟨z, hz, rfl⟩ := Option.map_eq_some_iff.mp hb
    exact hlt z (List.mem_of_getLast? hz) r hr
  rw [List.filter_append, hnone, hall, List.nil_append]

/-- `processBatch` の loop は、残りの record を `n` 個まで読む。 -/
theorem compact_batchLoop (cut : Versionstamp) : ∀ (n : Nat) (todo : List RevRecord)
    {recs : List RevRecord} {db : Db} (c : CompactProcessor) (last : Option RevKey),
    db.Holds recs → SortedBy RevRecord.rev todo → (∀ r ∈ todo, r ∈ recs) →
    (∀ r ∈ todo, r.rev ≤ cut) →
    ∃ db', batchLoop CompactProcessor.processor n c db (todo.flatMap (cutEntries cut)) last
        = (((lastVisited (todo.take n)).map CompactProcessor.mk).getD c, db',
          .ok (if n ≤ todo.length then
            ⟨((lastVisited (todo.take n)).map (chunkKey · maxInt64)).or last, true⟩
            else ⟨none, false⟩)) ∧
      db'.Holds ((todo.take n).foldl compactStep recs) ∧ db.SameRest db'
  | 0, todo, recs, db, c, last, h, _, _, _ => by
    refine ⟨db, ?_, h, Db.SameRest.refl db⟩
    simp [batchLoop, lastVisited]
  | n + 1, [], recs, db, c, last, h, _, _, _ => by
    refine ⟨db, ?_, h, Db.SameRest.refl db⟩
    simp [batchLoop, lastVisited, CompactProcessor.processor, CompactProcessor.next,
      ByRevision.getFromIterator]
  | n + 1, r :: rest, recs, db, c, last, h, hs, hm, hcut => by
    have hr := hm r List.mem_cons_self
    obtain ⟨db₁, hnext, h₁, hsame₁⟩ := compact_next c h hr hs
      (fun s hs => hcut s (List.mem_cons_of_mem _ hs))
    have hm₁ : ∀ s ∈ rest, s ∈ compactStep recs r := fun s hsm =>
      mem_compactStep.mpr ⟨hm s (List.mem_cons_of_mem _ hsm),
        fun hc => absurd hc.2 (hs.lt_of_mem hsm).ne'⟩
    obtain ⟨db₂, hloop, h₂, hsame₂⟩ := compact_batchLoop cut n rest ⟨r.rev⟩
      (some (chunkKey r.rev maxInt64)) h₁ hs.tail hm₁
      (fun s hs => hcut s (List.mem_cons_of_mem _ hs))
    refine ⟨db₂, ?_, h₂, hsame₁.trans hsame₂⟩
    have hnext' : CompactProcessor.processor.next c db ((r :: rest).flatMap (cutEntries cut))
        = (⟨r.rev⟩, db₁, .ok (rest.flatMap (cutEntries cut), some (chunkKey r.rev maxInt64), true)) :=
      hnext
    rw [batchLoop, hnext']
    simp only [Option.isSome_some, Bool.and_self, if_true]
    rw [hloop, List.take_succ_cons, lastVisited_cons]
    cases lastVisited (rest.take n) with
    | none => simp
    | some rev => simp

/-- `visited` を読んだ compaction が database にすること。 -/
structure Compacted (recs visited : List RevRecord) (db db' : Db) : Prop where
  holds : db'.Holds (compactRecs recs visited)
  version : db'.version = db.version
  byKeyCurrent : db'.byKeyCurrent = db.byKeyCurrent
  watch : db'.watch = db.watch
  latestRev : db'.latestRev = db.latestRev
  /-- watermark には最後に読んだ revision を書く。何も読まなければ書かない。 -/
  compactRev : db'.compactRev = (lastVisited visited).or db.compactRev

/-- compaction の後の watermark。何も読まなければ動かない。 -/
theorem Compacted.getCompactRev {visited : List RevRecord} {db' : Db}
    (h : Compacted recs visited db db') :
    db'.getCompactRev = (lastVisited visited).getD db.getCompactRev := by
  unfold Db.getCompactRev
  rw [h.compactRev]
  cases lastVisited visited with
  | none => rfl
  | some rev => rfl

/-- 一つの batch がすること。 -/
structure CompactBatch (recs : List RevRecord) (begin_ : Option Versionstamp) (endRev : Int)
    (n : Nat) (c : CompactCall) (db : Db) (c' : CompactCall) (db' : Db) : Prop
    extends Compacted recs (compactVisits recs begin_ endRev n) db db' where
  /-- 読み切るまでは走り続け、次の batch は最後に読んだ revision の後から始まる。 -/
  running : n < (compactTodo recs begin_ endRev).length →
    c'.status = .running ∧
      c'.beginKey = (lastVisited (compactVisits recs begin_ endRev n)).map (chunkKey · maxInt64)
  done : (compactTodo recs begin_ endRev).length ≤ n →
    c'.status = .done ∧ c'.beginKey = c.beginKey

theorem compact_endBatch {visited : Option Versionstamp} (hv : ∀ rev ∈ visited, IsRev rev) (db : Db)
    (isLast : Bool) :
    CompactProcessor.processor.endBatch
        ((visited.map CompactProcessor.mk).getD ⟨dummyVersionstamp⟩) db isLast
      = ((visited.map CompactProcessor.mk).getD ⟨dummyVersionstamp⟩,
        { db with compactRev := visited.or db.compactRev }, .ok ()) := by
  cases visited with
  | none => rfl
  | some rev =>
    simp only [CompactProcessor.processor, CompactProcessor.endBatch, Option.map_some,
      Option.getD_some]
    rw [if_pos (hv rev rfl).ne_dummy]
    rfl

theorem isRev_lastVisited {visited : List RevRecord} (h : ∀ r ∈ visited, r.Wf) :
    ∀ rev ∈ lastVisited visited, IsRev rev := by
  intro rev hrev
  obtain ⟨r, hr, rfl⟩ := Option.map_eq_some_iff.mp hrev
  exact (h r (List.mem_of_getLast? hr)).rev

/-- `Compact` の batch の仕様。 -/
theorem compact_batch {c : CompactCall} (h : db.Holds recs) {begin_ : Option Versionstamp}
    (hb : c.beginKey = begin_.map (chunkKey · maxInt64)) (endRev : Int) (n : Nat) :
    CompactBatch recs begin_ endRev n c db
      (c.batch CompactProcessor.processor (compactRange endRev) n db).1
      (c.batch CompactProcessor.processor (compactRange endRev) n db).2 := by
  have hm : ∀ r ∈ compactTodo recs begin_ endRev, r ∈ recs :=
    fun r hr => (mem_compactTodo.mp hr).1
  have hv : ∀ r ∈ compactVisits recs begin_ endRev n, r ∈ recs :=
    fun r hr => hm r (mem_of_mem_compactVisits hr)
  obtain ⟨db₁, hloop, h₁, hsame⟩ := compact_batchLoop (int64ToVersionstamp endRev) (n + 1)
    (compactTodo recs begin_ endRev) ⟨dummyVersionstamp⟩ none h
    (compactTodo_sorted h.sorted begin_ endRev) hm (fun r hr => (mem_compactTodo.mp hr).2.2)
  have hfold := foldl_compactStep h.sorted (compactVisits_sorted h.sorted begin_ endRev n) hv
  unfold compactVisits at hfold hv
  rw [hfold] at h₁
  have hend := compact_endBatch (isRev_lastVisited (fun r hr => h.wf r (hv r hr))) db₁
  have hproc := processBatch_ok (p := CompactProcessor.processor) (s := c.collector) hloop (hend _)
  rw [← compactRange_eq h, ← hb] at hproc
  rw [RangeCall.batch_ok hproc]
  by_cases hn : n + 1 ≤ (compactTodo recs begin_ endRev).length
  · rw [if_pos hn, if_pos rfl]
    refine ⟨⟨h₁.congr rfl rfl, hsame.version, hsame.byKeyCurrent, hsame.watch, hsame.latestRev, ?_⟩,
      ?_, ?_⟩
    · rw [← hsame.compactRev]; rfl
    · intro _
      exact ⟨rfl, Option.or_none⟩
    · intro hc
      omega
  · rw [if_neg hn, if_neg (by simp)]
    refine ⟨⟨h₁.congr rfl rfl, hsame.version, hsame.byKeyCurrent, hsame.watch, hsame.latestRev, ?_⟩,
      ?_, ?_⟩
    · rw [← hsame.compactRev]; rfl
    · intro hc
      omega
    · intro _
      exact ⟨rfl, rfl⟩

end KubeFdb
