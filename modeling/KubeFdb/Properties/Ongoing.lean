import KubeFdb.Properties.CompactBatch
import KubeFdb.Properties.Listing

/-!
# 途中の走査

走査の batch の間には、ほかの transaction が commit する。最初の batch の revision を `V` とすると、
後の batch は `V` より新しい record を読み飛ばして、`V` の時点の答えを作り続ける。

途中の走査の答えは、読み終えた列 `read` と、いま残っている列 `rest` から決まる
`chosenOf (upTo V) (read ++ rest)` である（`Ongoing`）。

* `Ongoing.batch` — batch は答えを変えずに読み進め、読み切ればその答えを渡し終えている
* `Ongoing.write` — 新しい record は窓の外にある
* `Ongoing.compact` — compaction は、走査がこれから使う record を消さなければ（`SparesRest`）答えを変えない
-/

namespace KubeFdb

open Tuple

/-- 最初の batch の revision の窓。 -/
def upTo (V : Int) (rev : Versionstamp) : Bool := decide (versionstampToInt64 rev ≤ V)

section

variable {σ : Type} {p : InnerProcessor σ} {spec : InnerSpec p} {cfg : Config} {db : Db}
  {recs hist answer read rest : List RevRecord} {inRange : Key → Bool} {V : Int} {call : ListCall σ}

/-- 途中の走査。`answer` は読み切ったときの答えである。 -/
structure Ongoing (spec : InnerSpec p) (inRange : Key → Bool) (V : Int)
    (answer recs hist read rest : List RevRecord) (call : ListCall σ) : Prop where
  scan : ScanInv spec (upTo V) call read
  unread : Unread recs hist inRange read rest
  answer : chosenOf (upTo V) (read ++ rest) = answer

/-! ## batch -/

/-- batch の後の走査。 -/
inductive BatchOutcome (spec : InnerSpec p) (inRange : Key → Bool) (V : Int)
    (answer recs hist : List RevRecord) (call : ListCall σ) : Prop
  | running (hmax : call.collector.maxRevision = 0) (hfirst : call.collector.firstRev = V)
      (read rest : List RevRecord) (h : Ongoing spec inRange V answer recs hist read rest call)
  | done (hdone : call.status = .done) (hfirst : call.collector.firstRev = V) (picks : Picks)
      (hrec : spec.Received call.collector.inner picks) (hans : picks.map Prod.fst = answer)
  | failed (e : Err) (hfail : call.status = .failed e)

/-- 上限のない走査の batch は、答えを変えない。 -/
theorem Ongoing.batch {prefix_ startKey : Key} {range : Bytes × Bytes} (cfg : Config)
    (htr : db.Holds recs) (hr : listRange prefix_ startKey = .ok range)
    (h : Ongoing spec (inListRange prefix_ startKey) V answer recs hist read rest call)
    (hready : AlwaysReady spec db recs hist (inListRange prefix_ startKey) (upTo V))
    (hwants : ∀ k, spec.wants k = true) (hmax : call.collector.maxRevision = 0)
    (hw : ∀ r ∈ recs, call.collector.inWindow r.rev = upTo V r.rev)
    (hV : (if call.collector.firstRev = 0 then db.getLatestRev cfg else call.collector.firstRev) = V)
    (n : Nat) :
    BatchOutcome spec (inListRange prefix_ startKey) V answer recs hist
      (call.batch (RecordCollector.processor p cfg) (indexRange range) n db).1 := by
  obtain ⟨hscan, hu, hans⟩ := h
  obtain ⟨-, hbatch⟩ := hu.batch cfg htr hr hscan hready hw n
  cases hbatch with
  | continued hn hadv hinv _ =>
    refine .running (hadv.maxRevision.trans hmax) (hadv.firstRev.trans hV) _ _
      ⟨hinv, hu.advance (n + 1), ?_⟩
    rw [List.append_assoc, List.take_append_drop]
    exact hans
  | finished hn hadv hdone hrec _ =>
    refine .done hdone (hadv.firstRev.trans hV) _ hrec ?_
    rw [scanOf_finish _ hu.ordered, pickedOf_fst]
    exact hans
  | sated m hm hadv hdone hne hwant hrec _ => exact absurd (hwants _) (by rw [hwant]; decide)
  | compacted hfail hc picks hrec m hm hpicks => exact .failed _ hfail
  | broken e hfail inner inner' now hin hend m hm hnow => exact .failed e hfail

/-! ## 残りの列の変化 -/

/-- database が変わった後の残りの列。 -/
theorem exists_unread (h : db.Holds recs) (hord : IndexOrdered read)
    (hin : ∀ r ∈ read, inRange r.key = true) (hsub : ∀ r ∈ recs, r ∈ hist)
    (hread : ∀ r ∈ read, r ∈ hist) : ∃ rest, Unread recs hist inRange read rest := by
  obtain ⟨l, -, ho, hm⟩ := exists_indexed h
    (fun k => decide (∀ b ∈ lastKey read, b < k) && inRange k.key)
  have hmem : ∀ r, r ∈ l ↔ r ∈ recs ∧ inRange r.key = true ∧
      ∀ b ∈ lastKey read, b < indexKey r.key r.rev := by
    intro r
    rw [hm, Bool.and_eq_true, decide_eq_true_eq, and_comm (a := ∀ b ∈ lastKey read, _)]
    rfl
  refine ⟨l, SortedBy.append_iff.mpr ⟨hord, ho, fun a ha b hb => ?_⟩, hmem, hin, fun r hr => ?_⟩
  · -- 読んだ列は最後に読んだ鍵を超えず、残りはその後ろにある
    cases hl : read.getLast? with
    | none => rw [List.getLast?_eq_none_iff.mp hl] at ha; exact absurd ha List.not_mem_nil
    | some z =>
      exact lt_of_le_of_lt ((hord.getLast?_eq_some_iff.mp hl).2 a ha)
        (((hmem b).mp hb).2.2 (indexKey z.key z.rev) (by simp [lastKey, hl]))
  · rcases List.mem_append.mp hr with hr | hr
    · exact hread r hr
    · exact hsub r ((hmem r).mp hr).1

/-- 選ばれる record が同じなら、途中の走査は続いている。 -/
theorem Ongoing.transfer (h : Ongoing spec inRange V answer recs hist read rest call)
    {db' : Db} {recs' hist' : List RevRecord} (hd : db'.Holds recs')
    (hsub : ∀ r ∈ recs', r ∈ hist') (hhist : ∀ r ∈ hist, r ∈ hist')
    (hsame : ∀ rest', Unread recs' hist' inRange read rest' → ∀ r,
      r ∈ chosenOf (upTo V) (read ++ rest') ↔ r ∈ chosenOf (upTo V) (read ++ rest)) :
    ∃ rest', Ongoing spec inRange V answer recs' hist' read rest' call := by
  obtain ⟨rest', hu⟩ := exists_unread hd h.unread.ordered_read h.unread.inRange hsub
    (fun r hr => hhist r (h.unread.mem_hist r (List.mem_append_left _ hr)))
  refine ⟨rest', h.scan, hu, ?_⟩
  rw [← h.answer]
  exact GroupScan.chosen_ext hu.ordered h.unread.ordered (hsame rest' hu)

/-- 窓の外の record を一つ足しても、答えは変わらない。 -/
theorem Ongoing.write (h : Ongoing spec inRange V answer recs hist read rest call) {db' : Db}
    {r : RevRecord} (hd : db'.Holds (recs ++ [r])) (hsub : ∀ x ∈ recs, x ∈ hist)
    (hnew : V < versionstampToInt64 r.rev) :
    ∃ rest', Ongoing spec inRange V answer (recs ++ [r]) (hist ++ [r]) read rest' call := by
  have hout : upTo V r.rev = false := by simpa [upTo] using hnew
  refine h.transfer hd (fun x hx => ?_) (fun x hx => List.mem_append_left _ hx)
    (fun rest' hu x => ?_)
  · rcases List.mem_append.mp hx with hx | hx
    · exact List.mem_append_left _ (hsub x hx)
    · exact List.mem_append_right _ hx
  · have hmem : ∀ x, upTo V x.rev = true → (x ∈ read ++ rest' ↔ x ∈ read ++ rest) := by
      intro x hx
      have hne : x ≠ r := fun he => by rw [he, hout] at hx; cases hx
      simp only [List.mem_append, hu.mem_rest, h.unread.mem_rest, List.mem_singleton, hne, or_false]
    unfold chosenOf
    rw [GroupScan.mem_chosen, GroupScan.mem_chosen]
    constructor
    · rintro ⟨hx, hxw, hl, hmax⟩
      exact ⟨(hmem x hxw).mp hx, hxw, hl, fun y hy hyw => hmax y ((hmem y hyw).mpr hy) hyw⟩
    · rintro ⟨hx, hxw, hl, hmax⟩
      exact ⟨(hmem x hxw).mpr hx, hxw, hl, fun y hy hyw => hmax y ((hmem y hyw).mp hy) hyw⟩

end

/-! ## compaction -/

/-- compaction の batch が、途中の走査の答えを変えない条件。batch が読む record のうち、走査がまだ
読んでおらず、`V` の時点で鍵の最新であるもの `t` だけが問題になる。 -/
structure SparesRest (V : Int) (recs read rest visited : List RevRecord)
    (begin_ : Option Versionstamp) : Prop where
  /-- 生きている `t` は、いまも鍵の最新である。 -/
  live : ∀ t ∈ rest, t ∈ visited → upTo V t.rev = true →
    (∀ x ∈ recs, x.key = t.key → upTo V x.rev = true → x.rev ≤ t.rev) →
    t.record.isDelete = false → ∀ x ∈ recs, x.key = t.key → x.rev ≤ t.rev
  /-- `t` が tombstone なら、持ち越した候補は同じ鍵の生きた record ではない。 -/
  carried : ∀ t ∈ rest, t ∈ visited → upTo V t.rev = true →
    (∀ x ∈ recs, x.key = t.key → upTo V x.rev = true → x.rev ≤ t.rev) →
    t.record.isDelete = true →
    ∀ c ∈ (scanOf (upTo V) read).candidate, c.1.key = t.key → c.1.record.isDelete = true
  /-- `t` が tombstone なら、鍵の古い record は batch の始まる位置までに残っていない。 -/
  stranded : ∀ t ∈ rest, t ∈ visited → upTo V t.rev = true →
    (∀ x ∈ recs, x.key = t.key → upTo V x.rev = true → x.rev ≤ t.rev) →
    t.record.isDelete = true →
    ∀ u ∈ rest, u.key = t.key → u.rev < t.rev → u.record.isDelete = false → ∀ b ∈ begin_, b < u.rev

section

variable {hist read rest : List RevRecord} {inRange : Key → Bool} {V : Int}
  {recs : List RevRecord} {begin_ : Option Versionstamp} {endRev : Int} {n : Nat}

/-- 残りの record と同じ鍵でより新しい record も、残りの列にある。 -/
theorem Unread.mem_rest_of_newer (h : Unread recs hist inRange read rest) {t x : RevRecord}
    (ht : t ∈ rest) (hx : x ∈ recs) (hk : x.key = t.key) (hlt : t.rev < x.rev) : x ∈ rest := by
  obtain ⟨-, hin, hafter⟩ := (h.mem_rest t).mp ht
  refine (h.mem_rest x).mpr ⟨hx, hk ▸ hin, fun b hb => (hafter b hb).trans ?_⟩
  exact Prod.Lex.lt_iff.mpr (Or.inr ⟨hk.symm, hlt⟩)

/-- 読み終えた record より後ろに同じ鍵の record が残っていれば、最後に読んだ record も同じ鍵である。 -/
theorem Unread.candidate_of_read (h : Unread recs hist inRange read rest) {a t : RevRecord}
    (ha : a ∈ read) (haw : upTo V a.rev = true) (ht : t ∈ rest) (hk : a.key = t.key)
    (hmax : ∀ x ∈ read, upTo V x.rev = true → x.key = a.key → x.rev ≤ a.rev) :
    ∃ f, (scanOf (upTo V) read).candidate = some (a, f) := by
  obtain ⟨z, hz⟩ : ∃ z, read.getLast? = some z := by
    cases hl : read.getLast? with
    | none => rw [List.getLast?_eq_none_iff.mp hl] at ha; exact absurd ha List.not_mem_nil
    | some z => exact ⟨z, rfl⟩
  have haz : a.key ≤ z.key := by
    rcases Prod.Lex.le_iff.mp ((h.ordered_read.getLast?_eq_some_iff.mp hz).2 a ha) with hlt | ⟨he, -⟩
    · exact hlt.le
    · exact he.le
  have hzt : z.key ≤ t.key := by
    rcases Prod.Lex.lt_iff.mp (((h.mem_rest t).mp ht).2.2 (indexKey z.key z.rev)
      (by simp [lastKey, hz])) with hlt | ⟨he, -⟩
    · exact hlt.le
    · exact he.le
  exact GroupScan.candidate_scan h.ordered_read hz ha haw (le_antisymm haz (hk ▸ hzt)) hmax

/-- 選ぶ対象に `a` より新しい record があるとき、その中で最新の record。 -/
theorem Unread.exists_newest_rest (hs : SortedBy RevRecord.rev recs)
    (h : Unread recs hist inRange read rest) {a x : RevRecord}
    (hread : ∀ y ∈ read, upTo V y.rev = true → y.key = a.key → y.rev ≤ a.rev)
    (hx : x ∈ read ++ rest) (hxw : upTo V x.rev = true) (hxk : x.key = a.key)
    (hlt : a.rev < x.rev) :
    ∃ t ∈ rest, upTo V t.rev = true ∧ t.key = a.key ∧ a.rev < t.rev ∧
      ∀ y ∈ read ++ rest, upTo V y.rev = true → y.key = t.key → y.rev ≤ t.rev := by
  have hfilter : ∀ {y}, y ∈ recs.filter (fun y => decide (y ∈ rest) && upTo V y.rev) ↔
      y ∈ rest ∧ upTo V y.rev = true := by
    intro y
    rw [List.mem_filter, Bool.and_eq_true, decide_eq_true_eq]
    exact ⟨fun hy => hy.2, fun hy => ⟨((h.mem_rest y).mp hy.1).1, hy⟩⟩
  have hxrest : x ∈ rest := by
    rcases List.mem_append.mp hx with hx | hx
    · exact absurd (hread x hx hxw hxk) (not_le.mpr hlt)
    · exact hx
  obtain ⟨t, ht⟩ := exists_newest RevRecord.key (hfilter.mpr ⟨hxrest, hxw⟩) hxk
  obtain ⟨htf, htk, htmax⟩ := (newest_eq_some_iff (hs.filter _)).mp ht
  obtain ⟨htrest, htw⟩ := hfilter.mp htf
  have hat : a.rev < t.rev := hlt.trans_le (htmax x (hfilter.mpr ⟨hxrest, hxw⟩) hxk)
  refine ⟨t, htrest, htw, htk, hat, fun y hy hyw hyk => ?_⟩
  rcases List.mem_append.mp hy with hy | hy
  · exact (hread y hy hyw (hyk.trans htk)).trans hat.le
  · exact htmax y (hfilter.mpr ⟨hy, hyw⟩) (hyk.trans htk)

/-- 選ぶ対象の中で最新なら、`V` までの record の中でも最新である。 -/
theorem Unread.newest_of_rest (h : Unread recs hist inRange read rest) {t : RevRecord}
    (ht : t ∈ rest)
    (hmax : ∀ x ∈ read ++ rest, upTo V x.rev = true → x.key = t.key → x.rev ≤ t.rev) :
    ∀ x ∈ recs, x.key = t.key → upTo V x.rev = true → x.rev ≤ t.rev := by
  intro x hx hk hxw
  by_contra hlt
  exact hlt (hmax x (List.mem_append_right _ (h.mem_rest_of_newer ht hx hk (not_le.mp hlt))) hxw hk)

section Compact

variable {rest' : List RevRecord} (hs : SortedBy RevRecord.rev recs)
  (hu : Unread recs hist inRange read rest)
  (hspare : SparesRest V recs read rest (compactVisits recs begin_ endRev n) begin_)
  (hu' : Unread (compactRecs recs (compactVisits recs begin_ endRev n)) hist inRange read rest')

include hu hu'

theorem mem_rest_compact {x : RevRecord} : x ∈ rest' ↔ x ∈ rest ∧
    ¬ (x ∈ compactVisits recs begin_ endRev n ∧ discards recs x = true) := by
  rw [hu'.mem_rest, hu.mem_rest, mem_compactRecs]
  tauto

include hspare

/-- 生きていて選ばれる record は消えない。 -/
theorem mem_rest_of_spared {t : RevRecord} (ht : t ∈ rest) (htw : upTo V t.rev = true)
    (hd : t.record.isDelete = false)
    (hmax : ∀ x ∈ read ++ rest, upTo V x.rev = true → x.key = t.key → x.rev ≤ t.rev) :
    t ∈ rest' := by
  refine (mem_rest_compact hu hu').mpr ⟨ht, ?_⟩
  rintro ⟨hvis, hdis⟩
  rcases discards_iff.mp hdis with ⟨x, hx, hk, hlt⟩ | hdel
  · exact absurd (hspare.live t ht hvis htw (hu.newest_of_rest ht hmax) hd x hx hk)
      (not_le.mpr hlt)
  · exact absurd (hd.symm.trans hdel) (by decide)

include hs

/-- compaction の後で選ばれる record は、前にも選ばれていた。 -/
theorem newest_of_spared {a : RevRecord} (ha : a ∈ read ++ rest') (haw : upTo V a.rev = true)
    (had : a.record.isDelete = false)
    (hmax : ∀ x ∈ read ++ rest', upTo V x.rev = true → x.key = a.key → x.rev ≤ a.rev) :
    ∀ x ∈ read ++ rest, upTo V x.rev = true → x.key = a.key → x.rev ≤ a.rev := by
  intro x hx hxw hxk
  by_contra hlt
  -- 同じ鍵で最新の record `t` は消えたはずだから、読まれた tombstone である
  obtain ⟨t, htrest, htw, htk, hat, htmax⟩ := hu.exists_newest_rest hs
    (fun y hy => hmax y (List.mem_append_left _ hy)) hx hxw hxk (not_le.mp hlt)
  have hgone : t ∉ rest' := fun hc =>
    absurd (hmax t (List.mem_append_right _ hc) htw htk) (not_le.mpr hat)
  have hvis : t ∈ compactVisits recs begin_ endRev n := by
    by_contra hc
    exact hgone ((mem_rest_compact hu hu').mpr ⟨htrest, fun h => hc h.1⟩)
  have htd : t.record.isDelete = true := by
    by_contra hc
    exact hgone (mem_rest_of_spared hu hspare hu' htrest htw (by simpa using hc) htmax)
  have hnew := hu.newest_of_rest htrest htmax
  rcases List.mem_append.mp ha with ha | ha
  · -- 読み終えた `a` は持ち越した候補である
    obtain ⟨f, hf⟩ := hu.candidate_of_read ha haw htrest htk.symm
      (fun y hy => hmax y (List.mem_append_left _ hy))
    have hdel := hspare.carried t htrest hvis htw hnew htd (a, f) hf htk.symm
    exact absurd (had.symm.trans hdel) (by decide)
  · -- 残りの `a` は、`t` と同じ batch で読まれて消えたはずである
    obtain ⟨harest, hakeep⟩ := (mem_rest_compact hu hu').mp ha
    have hafter := hspare.stranded t htrest hvis htw hnew htd a harest htk.symm hat had
    have hcut := (mem_compactTodo.mp (mem_of_mem_compactVisits hvis)).2.2
    refine hakeep ⟨mem_compactVisits_of_le hs hvis (mem_compactTodo.mpr
      ⟨((hu.mem_rest a).mp harest).1, hafter, hat.le.trans hcut⟩) hat.le, ?_⟩
    exact discards_iff.mpr (Or.inl ⟨t, ((hu.mem_rest t).mp htrest).1, htk, hat⟩)

/-- 走査が使う record を消さない compaction は、選ばれる record を変えない。 -/
theorem mem_chosenOf_compact (a : RevRecord) :
    a ∈ chosenOf (upTo V) (read ++ rest') ↔ a ∈ chosenOf (upTo V) (read ++ rest) := by
  have hsub : ∀ x ∈ read ++ rest', x ∈ read ++ rest := by
    intro x hx
    rcases List.mem_append.mp hx with hx | hx
    · exact List.mem_append_left _ hx
    · exact List.mem_append_right _ ((mem_rest_compact hu hu').mp hx).1
  have hdelete : a.live = true → a.record.isDelete = false := by simp [RevRecord.live]
  unfold chosenOf
  rw [GroupScan.mem_chosen, GroupScan.mem_chosen]
  constructor
  · rintro ⟨ha, haw, hal, hmax⟩
    exact ⟨hsub a ha, haw, hal, newest_of_spared hs hu hspare hu' ha haw (hdelete hal) hmax⟩
  · rintro ⟨ha, haw, hal, hmax⟩
    refine ⟨?_, haw, hal, fun x hx => hmax x (hsub x hx)⟩
    rcases List.mem_append.mp ha with ha | ha
    · exact List.mem_append_left _ ha
    · exact List.mem_append_right _
        (mem_rest_of_spared hu hspare hu' ha haw (hdelete hal) hmax)

end Compact

theorem Ongoing.compact {σ : Type} {p : InnerProcessor σ} {spec : InnerSpec p} {call : ListCall σ}
    {answer : List RevRecord} (h : Ongoing spec inRange V answer recs hist read rest call)
    (hs : SortedBy RevRecord.rev recs) {db' : Db}
    (hd : db'.Holds (compactRecs recs (compactVisits recs begin_ endRev n)))
    (hsub : ∀ r ∈ recs, r ∈ hist)
    (hspare : SparesRest V recs read rest (compactVisits recs begin_ endRev n) begin_) :
    ∃ rest', Ongoing spec inRange V answer (compactRecs recs (compactVisits recs begin_ endRev n))
      hist read rest' call :=
  h.transfer hd (fun r hr => hsub r (mem_compactRecs.mp hr).1) (fun _ hr => hr)
    (fun _ hu' => mem_chosenOf_compact hs h.unread hspare hu')

end

end KubeFdb
