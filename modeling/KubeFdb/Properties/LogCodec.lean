import KubeFdb.Properties.Selectors

/-!
# log の読み書き

`byRevision` に書いた record を、`GetFromIterator` を繰り返して読み戻す。

header と chunk は一つの鍵の列に続けて並び、区切りがない。読み手は header の `ValueSize` の分だけ chunk を
読み進めるので、chunk の長さの和が `ValueSize` に一致することだけが頼りである。

* `writeAll_entries` — どの順に書いても、log は record を revision の順に展開したものになる
* `reads_flatMap` — 展開した列を読むと record が順に戻り、`ParseKV` はいつも header を受け取る
* `record_log_codec` — 始めから、record の切れ目から、`(rev, MaxInt64)` の次から読んだ結果
-/

namespace KubeFdb

open Tuple

/-- 列の record を順に `Write` した log。 -/
def writeAll (recs : List RevRecord) : OrdMap RevKey RevValue :=
  recs.foldl (fun m r => ByRevision.write m r.rev r.record) .empty

/-- `GetFromIterator` を `n` 回まで繰り返す。 -/
def readLog : Nat → RevIterator → Except Err (List RevRecord)
  | 0, _ => .ok []
  | n + 1, it =>
    match ByRevision.getFromIterator it with
    | .error e => .error e
    | .ok (none, _) => .ok []
    | .ok (some r, it') => (readLog n it').map (r :: ·)

/-- `readLog` が `ParseKV` に渡す entry。 -/
def parsedEntries : Nat → RevIterator → List (RevKey × RevValue)
  | 0, _ => []
  | _ + 1, [] => []
  | n + 1, e :: rest =>
    e :: (match ByRevision.getFromIterator (e :: rest) with
      | .error _ => []
      | .ok (_, it') => parsedEntries n it')

/-- record の header の entry。`ParseKV` はこの形しか受け付けない。 -/
def headerEntry (r : RevRecord) : RevKey × RevValue :=
  (headerKey r.rev, .header (ByRevision.recordToTuple r.record))

/-- iterator を読むと、`recs` が順に一度ずつ読め、`ParseKV` はそれぞれの header を受け取ること。 -/
def Reads (it : RevIterator) (recs : List RevRecord) : Prop :=
  ∀ n, readLog n it = .ok ((recs.take n).map RevRecord.stored) ∧
    parsedEntries n it = (recs.take n).map headerEntry

/-- iterator が record の切れ目にあること。先頭は chunk の鍵でない。 -/
def AtBoundary (it : RevIterator) : Prop := ∀ e ∈ it.head?, e.1.offset = ⊥

/-! ## 書き込み -/

theorem mem_foldl_write {e : RevKey × RevValue} : ∀ {recs : List RevRecord}
    {m : OrdMap RevKey RevValue}, (recs.map RevRecord.rev).Nodup →
    (∀ e' ∈ m.entries, e'.1.rev ∉ recs.map RevRecord.rev) →
    (e ∈ (recs.foldl (fun m r => ByRevision.write m r.rev r.record) m).entries ↔
      e ∈ m.entries ∨ e ∈ recs.flatMap logEntries)
  | [], m, _, _ => by simp
  | r :: recs, m, hd, hm => by
    rw [List.map_cons, List.nodup_cons] at hd
    have hnew : ∀ e' ∈ m.entries, e'.1.rev ≠ r.rev :=
      fun e' he' hc => hm e' he' (by rw [hc]; exact List.mem_cons_self)
    rw [List.foldl_cons, mem_foldl_write hd.2 ?_, ByRevision.mem_write hnew, List.flatMap_cons,
      List.mem_append]
    · tauto
    · intro e' he'
      rcases (ByRevision.mem_write hnew).mp he' with h | h
      · rw [logEntries_rev h]
        exact hd.1
      · exact fun hc => hm e' h (List.mem_cons_of_mem _ hc)

/-- どの順に書いても、log は revision の順に展開したものになる。 -/
theorem writeAll_entries {recs l : List RevRecord} (hd : (recs.map RevRecord.rev).Nodup)
    (hs : SortedBy RevRecord.rev l) (hp : l.Perm recs) :
    (writeAll recs).entries = l.flatMap logEntries := by
  refine SortedBy.eq_of_mem_iff (OrdMap.sorted _) (flatMap_logEntries_sorted hs) fun e => ?_
  unfold writeAll
  rw [mem_foldl_write hd fun e' he' => by simp at he']
  simp only [OrdMap.mem_empty, false_or, List.mem_flatMap, hp.mem_iff]

theorem exists_sorted_perm {recs : List RevRecord} (hd : (recs.map RevRecord.rev).Nodup) :
    ∃ l : List RevRecord, l.Perm recs ∧ SortedBy RevRecord.rev l := by
  have hperm := List.perm_insertionSort (fun a b : RevRecord => a.rev ≤ b.rev) recs
  have hpw : (recs.insertionSort (fun a b => a.rev ≤ b.rev)).Pairwise (fun a b => a.rev ≤ b.rev) := by
    have : Std.Total (fun a b : RevRecord => a.rev ≤ b.rev) := ⟨fun a b => le_total _ _⟩
    have : IsTrans RevRecord (fun a b => a.rev ≤ b.rev) := ⟨fun a b c => le_trans⟩
    exact List.pairwise_insertionSort _ recs
  have hnd : ((recs.insertionSort (fun a b => a.rev ≤ b.rev)).map RevRecord.rev).Nodup :=
    (hperm.map _).nodup_iff.mpr hd
  refine ⟨_, hperm, ?_⟩
  have hne := List.pairwise_map.mp hnd
  exact (hpw.and hne).imp fun h => lt_of_le_of_ne h.1 h.2

/-! ## 読み出し -/

/-- 展開した列を読むと、record が順に戻る。帰納法は読む回数による。 -/
theorem reads_flatMap : ∀ {l : List RevRecord},
    (∀ r ∈ l, r.record.valueSize = r.record.value.length) → Reads (l.flatMap logEntries) l := by
  intro l hsize n
  induction n generalizing l with
  | zero => exact ⟨rfl, rfl⟩
  | succ n ih =>
    cases l with
    | nil => exact ⟨rfl, rfl⟩
    | cons r l =>
      have hget := getFromIterator_logEntries (hsize r List.mem_cons_self) (l.flatMap logEntries)
      obtain ⟨hread, hparsed⟩ := ih (fun r' hr' => hsize r' (List.mem_cons_of_mem _ hr'))
      rw [List.flatMap_cons, List.take_succ_cons, List.map_cons, List.map_cons]
      constructor
      · rw [readLog, hget]
        show (readLog n (l.flatMap logEntries)).map (r.stored :: ·) = _
        rw [hread]
        rfl
      · rw [← hparsed]
        show headerEntry r :: (match ByRevision.getFromIterator (logEntries r ++ l.flatMap logEntries) with
          | .error _ => []
          | .ok (_, it') => parsedEntries n it') = _
        rw [hget]

/-- 切れ目から後ろの列は、後ろの record を展開したものである。 -/
theorem exists_later_of_boundary : ∀ {l : List RevRecord} {it : RevIterator},
    it <:+ l.flatMap logEntries → AtBoundary it →
    ∃ later, later <:+ l ∧ it = later.flatMap logEntries
  | [], it, h, _ => ⟨[], List.suffix_refl _, List.suffix_nil.mp h⟩
  | r :: l, it, ⟨pre, h⟩, hb => by
    rw [List.flatMap_cons] at h
    rcases List.append_eq_append_iff.mp h with ⟨cut, hcut, hit⟩ | ⟨cut, hpre, hrest⟩
    · -- 切れ目が `r` の entry の中にあれば、それは `r` の header である
      cases pre with
      | nil =>
        rw [List.nil_append] at hcut
        exact ⟨r :: l, List.suffix_refl _, by rw [hit, ← hcut, List.flatMap_cons]⟩
      | cons e pre =>
        cases cut with
        | nil => exact ⟨l, List.suffix_cons r l, by rw [hit, List.nil_append]⟩
        | cons c cut =>
          have hmem : c ∈ (chunksOf r.record.value).map
              (fun c => (chunkKey r.rev c.1, RevValue.chunk c.2)) := by
            rw [logEntries, List.cons_append] at hcut
            rw [(List.cons.inj hcut).2]
            simp
          obtain ⟨d, -, rfl⟩ := List.mem_map.mp hmem
          have hbot := hb _ (by rw [hit]; rfl)
          exact absurd hbot (WithBot.coe_ne_bot (a := d.1))
    · obtain ⟨later, hl, heq⟩ := exists_later_of_boundary ⟨cut, hrest.symm⟩ hb
      exact ⟨later, hl.trans (List.suffix_cons r l), heq⟩

/-- 書いた record は、どの切れ目から読んでも revision の順に一度ずつ戻る。 -/
theorem record_log_codec (recs : List RevRecord) (hd : (recs.map RevRecord.rev).Nodup)
    (hsize : ∀ r ∈ recs, r.record.valueSize = r.record.value.length)
    (hbound : ∀ r ∈ recs, r.record.value.length ≤ maxRecordSize) :
    ∃ l : List RevRecord, l.Perm recs ∧ SortedBy RevRecord.rev l ∧
      Reads (writeAll recs).entries l ∧
      (∀ it, it <:+ (writeAll recs).entries → AtBoundary it →
        Reads it (l.filter (fun r => decide (headerEntry r ∈ it)))) ∧
      ∀ r ∈ l, Reads (entriesAfter (some (chunkKey r.rev maxInt64)) (writeAll recs).entries)
        (l.filter (fun r' => decide (r.rev < r'.rev))) := by
  obtain ⟨l, hp, hs⟩ := exists_sorted_perm hd
  have hentries := writeAll_entries hd hs hp
  have hl : ∀ r ∈ l, r.record.valueSize = r.record.value.length :=
    fun r hr => hsize r (hp.mem_iff.mp hr)
  refine ⟨l, hp, hs, ?_, fun it hit hb => ?_, fun r hr => ?_⟩
  · rw [hentries]
    exact reads_flatMap hl
  · rw [hentries] at hit
    obtain ⟨later, hlater, rfl⟩ := exists_later_of_boundary hit hb
    have hmem : ∀ r ∈ l, headerEntry r ∈ later.flatMap logEntries ↔ r ∈ later := by
      intro r hr
      constructor
      · intro h
        obtain ⟨r', hr', he⟩ := List.mem_flatMap.mp h
        have hrev : r.rev = r'.rev := logEntries_rev he
        rw [hs.eq_of_index_eq hr (hlater.subset hr') hrev]
        exact hr'
      · exact fun h => List.mem_flatMap.mpr ⟨r, h, List.mem_cons_self⟩
    have heq : l.filter (fun r => decide (headerEntry r ∈ later.flatMap logEntries)) = later := by
      refine SortedBy.eq_of_mem_iff (hs.filter _) (hs.sublist hlater.sublist) fun r => ?_
      rw [List.mem_filter, decide_eq_true_eq]
      exact ⟨fun h => (hmem r h.1).mp h.2, fun h => ⟨hlater.subset h, (hmem r (hlater.subset h)).mpr h⟩⟩
    rw [heq]
    exact reads_flatMap fun r hr => hl r (hlater.subset hr)
  · have hafter := entriesAfter_flatMap (f := logEntries) (fun r e he => he) (some r.rev)
      (fun r' hr' => hbound r' (hp.mem_iff.mp hr'))
    rw [← hentries] at hafter
    simp only [Option.map_some, Option.mem_some_iff, forall_eq'] at hafter
    rw [hafter]
    exact reads_flatMap fun r' hr' => hl r' (List.mem_of_mem_filter hr')

/-- 空の値と、`chunkSize` ちょうどの値を持つ record。revision の逆順に書く。 -/
def codecRecs : List RevRecord :=
  [⟨commitStamp 5, ⟨[0x61], true, false, 0, commitStamp 3, commitStamp 3, 0, 1, [], false⟩⟩,
    ⟨commitStamp 3, ⟨[0x61], false, true, 7, dummyVersionstamp, dummyVersionstamp, chunkSize, 2,
      List.replicate chunkSize 9, false⟩⟩]

theorem record_log_codec_codecRecs :
    ∃ l : List RevRecord, l.Perm codecRecs ∧ SortedBy RevRecord.rev l ∧
      Reads (writeAll codecRecs).entries l := by
  have hlen : (List.replicate chunkSize (9 : Byte)).length = chunkSize := List.length_replicate
  obtain ⟨l, hp, hs, hreads, -⟩ := record_log_codec codecRecs (by decide)
    (List.forall_mem_cons.mpr ⟨rfl, List.forall_mem_singleton.mpr hlen.symm⟩)
    (List.forall_mem_cons.mpr ⟨Nat.zero_le _, List.forall_mem_singleton.mpr
      (hlen.trans_le (by decide))⟩)
  exact ⟨l, hp, hs, hreads⟩

end KubeFdb
