import KubeFdb.Properties.Collectors
import KubeFdb.Properties.ListRange

/-!
# 一覧の正しさ

走査が渡した record の値は、その batch の snapshot で埋められる（`fillable_of_picked`）。
そこから、ほかの transaction が挟まらない `List`、`Get`、`Count` の結果を、record の列について
述べる（`list_within`、`get_eq_head`、`countScan_eq`）。
-/

namespace KubeFdb

open Tuple

/-! ## 読んだ列と残りの列 -/

/-- `read` を読み終え、この snapshot では `rest` が残っていること。`read` の record は
もう database にないこともある。 -/
structure Unread (recs hist : List RevRecord) (inRange : Key → Bool) (read rest : List RevRecord) :
    Prop where
  ordered : IndexOrdered (read ++ rest)
  mem_rest : ∀ r, r ∈ rest ↔ r ∈ recs ∧ inRange r.key = true ∧
    ∀ b ∈ lastKey read, b < indexKey r.key r.rev
  inRange : ∀ r ∈ read, inRange r.key = true
  mem_hist : ∀ r ∈ read ++ rest, r ∈ hist

/-- 選ばれる record。`w` は revision の窓である。 -/
def chosenOf (w : Versionstamp → Bool) (l : List RevRecord) : List RevRecord :=
  GroupScan.chosen RevRecord.key RevRecord.rev (fun r => w r.rev) RevRecord.live l

def pickedOf (w : Versionstamp → Bool) (l : List RevRecord) : Picks :=
  GroupScan.picked RevRecord.key RevRecord.rev (fun r => w r.rev) RevRecord.live l

theorem scanOf_finish (w : Versionstamp → Bool) {l : List RevRecord} (h : IndexOrdered l) :
    GroupScan.finish RevRecord.live (scanOf w l) = pickedOf w l := GroupScan.finish_scan h

theorem scanOf_emitted (w : Versionstamp → Bool) {l : List RevRecord} (h : IndexOrdered l) :
    (scanOf w l).emitted = pickedOf w (GroupScan.closed RevRecord.key l) := GroupScan.emitted_scan h

theorem pickedOf_sorted (w : Versionstamp → Bool) {l : List RevRecord} (h : IndexOrdered l) :
    PicksSorted (pickedOf w l) := GroupScan.picked_sorted h

theorem pickedOf_fst (w : Versionstamp → Bool) (l : List RevRecord) :
    (pickedOf w l).map Prod.fst = chosenOf w l := GroupScan.picked_fst

theorem mem_append_take {read rest : List RevRecord} {m : Nat} {r : RevRecord}
    (hr : r ∈ read ++ rest.take m) : r ∈ read ++ rest :=
  (List.Sublist.append_left (List.take_sublist m rest) read).subset hr

section Fill

variable {recs hist : List RevRecord} {inRange : Key → Bool} {read rest : List RevRecord}
  {w : Versionstamp → Bool}

theorem Unread.ordered_read (h : Unread recs hist inRange read rest) : IndexOrdered read :=
  (SortedBy.append_iff.mp h.ordered).1

theorem Unread.inRange_all (h : Unread recs hist inRange read rest) :
    ∀ r ∈ read ++ rest, inRange r.key = true := by
  intro r hr
  rcases List.mem_append.mp hr with hr | hr
  · exact h.inRange r hr
  · exact ((h.mem_rest r).mp hr).2.1

/-- 鍵ごとに読み終えた列 `part` から、いまの batch で渡される record は、この snapshot の値で埋められる。 -/
theorem fillable_of_picked (h : Unread recs hist inRange read rest) {part : List RevRecord}
    {now : Picks} (hord : IndexOrdered part) (hsub : ∀ r ∈ part, r ∈ read ++ rest)
    (hcomplete : ∀ a ∈ part, ∀ r ∈ read ++ rest, r.key = a.key → r ∈ part)
    (hp : pickedOf w part = (scanOf w read).emitted ++ now) :
    ∀ c ∈ now, Fillable recs hist c := by
  intro c hc
  have hcp : c ∈ pickedOf w part := by rw [hp]; exact List.mem_append_right _ hc
  obtain ⟨hch, hflag⟩ := GroupScan.mem_picked hcp
  obtain ⟨hcm, hcw, hlive, hmax⟩ := GroupScan.mem_chosen.mp hch
  -- 前の batch で渡したものは、もう渡さない
  have hkey : ∀ b, read.getLast? = some b → b.key ≤ c.1.key := by
    intro b hb
    by_contra hlt
    have hlt := not_le.mp hlt
    have hread : c.1 ∈ read := by
      rcases List.mem_append.mp (hsub c.1 hcm) with hr | hr
      · exact hr
      · have hb' := ((h.mem_rest c.1).mp hr).2.2 (indexKey b.key b.rev) (by simp [lastKey, hb])
        rcases Prod.Lex.lt_iff.mp hb' with hk | ⟨hk, -⟩
        · exact absurd hk (lt_asymm hlt)
        · exact absurd hk hlt.ne'
    have hbefore : c.1 ∈ chosenOf w (GroupScan.closed RevRecord.key read) := by
      refine GroupScan.mem_chosen.mpr ⟨GroupScan.mem_closed.mpr ⟨hread, b, hb, hlt⟩, hcw, hlive, ?_⟩
      intro x hx hxw hxk
      have hxr := (GroupScan.mem_closed.mp hx).1
      exact hmax x (hcomplete c.1 hcm x (List.mem_append_left _ hxr) hxk) hxw hxk
    have hdone : c.1 ∈ (scanOf w read).emitted.map Prod.fst := by
      rw [scanOf_emitted w h.ordered_read, pickedOf_fst]
      exact hbefore
    have hnodup : (chosenOf w part).Nodup := (GroupScan.chosen_sorted hord).nodup
    rw [← pickedOf_fst, hp, List.map_append] at hnodup
    exact List.disjoint_of_nodup_append hnodup hdone (List.mem_map_of_mem hc)
  refine ⟨h.mem_hist c.1 (hsub c.1 hcm), by simpa [RevRecord.live] using hlive, ?_⟩
  intro hf r hr hrk
  rw [hf] at hflag
  have hnew := GroupScan.isNewest_iff.mp hflag.symm
  have hin : inRange r.key = true := hrk ▸ h.inRange_all c.1 (hsub c.1 hcm)
  by_cases hrest : r ∈ rest
  · exact hnew r (hcomplete c.1 hcm r (List.mem_append_right _ hrest) hrk) hrk
  · -- 読み飛ばした位置にある record は、最後に読んだ record より古い
    have hno : ¬ ∀ b ∈ lastKey read, b < indexKey r.key r.rev :=
      fun hall => hrest ((h.mem_rest r).mpr ⟨hr, hin, hall⟩)
    push Not at hno
    obtain ⟨k, hk, hle⟩ := hno
    obtain ⟨b, hb, rfl⟩ := Option.map_eq_some_iff.mp hk
    have hbr : b ∈ read ++ rest := List.mem_append_left _ (List.mem_of_getLast? hb)
    have hbk := hkey b hb
    rcases Prod.Lex.le_iff.mp hle with hlt | ⟨he, hrev⟩
    · exact absurd (hrk ▸ hlt : c.1.key < b.key) (not_lt.mpr hbk)
    · have hbc : b.key = c.1.key := he.symm.trans hrk
      exact hrev.trans (hnew b (hcomplete c.1 hcm b hbr hbc) hbc)

/-- 読み終えた鍵のどれにも、まだ読んでいない record はない。 -/
theorem Unread.complete_closed (h : Unread recs hist inRange read rest) {m : Nat} :
    ∀ a ∈ GroupScan.closed RevRecord.key (read ++ rest.take m), ∀ r ∈ read ++ rest,
      r.key = a.key → r ∈ GroupScan.closed RevRecord.key (read ++ rest.take m) := by
  intro a ha r hr hk
  obtain ⟨-, z, hz, hlt⟩ := GroupScan.mem_closed.mp ha
  refine GroupScan.mem_closed.mpr ⟨?_, z, hz, hk ▸ hlt⟩
  have hsplit : (read ++ rest.take m) ++ rest.drop m = read ++ rest := by
    rw [List.append_assoc, List.take_append_drop]
  have hord := h.ordered
  rw [← hsplit] at hr hord
  rcases List.mem_append.mp hr with hr | hr
  · exact hr
  · have hzr := (SortedBy.append_iff.mp hord).2.2 z (List.mem_of_getLast? hz) r hr
    rcases Prod.Lex.lt_iff.mp hzr with hlt' | ⟨he, -⟩
    · exact absurd (hk ▸ hlt' : z.key < a.key) (lt_asymm hlt)
    · exact absurd (he.trans hk : z.key = a.key) hlt.ne'

theorem Unread.ordered_take (h : Unread recs hist inRange read rest) (m : Nat) :
    IndexOrdered (read ++ rest.take m) :=
  h.ordered.sublist (List.Sublist.append_left (List.take_sublist m rest) read)

/-- batch の途中で渡した record。 -/
theorem Unread.fillable_emitted (h : Unread recs hist inRange read rest) {m : Nat} {now : Picks}
    (hem : (scanOf w (read ++ rest.take m)).emitted = (scanOf w read).emitted ++ now) :
    PicksSorted now ∧ ∀ c ∈ now, Fillable recs hist c := by
  have hord := GroupScan.closed_ordered (h.ordered_take m)
  have hp : pickedOf w (GroupScan.closed RevRecord.key (read ++ rest.take m))
      = (scanOf w read).emitted ++ now := by
    rw [← hem, scanOf_emitted w (h.ordered_take m)]
  have hs := pickedOf_sorted w hord
  rw [hp] at hs
  exact ⟨(SortedBy.append_iff.mp hs).2.1, fillable_of_picked h hord
    (fun r hr => mem_append_take (GroupScan.mem_closed.mp hr).1) h.complete_closed hp⟩

theorem Unread.sorted_finish (h : Unread recs hist inRange read rest) {m : Nat} {now : Picks}
    (hem : GroupScan.finish RevRecord.live (scanOf w (read ++ rest.take m))
      = (scanOf w read).emitted ++ now) : PicksSorted now := by
  have hs := pickedOf_sorted w (h.ordered_take m)
  rw [← scanOf_finish w (h.ordered_take m), hem] at hs
  exact (SortedBy.append_iff.mp hs).2.1

/-- 読み切ったところで渡した record。 -/
theorem Unread.fillable_finish (h : Unread recs hist inRange read rest) {now : Picks}
    (hem : GroupScan.finish RevRecord.live (scanOf w (read ++ rest))
      = (scanOf w read).emitted ++ now) : PicksSorted now ∧ ∀ c ∈ now, Fillable recs hist c := by
  have hp : pickedOf w (read ++ rest) = (scanOf w read).emitted ++ now := by
    rw [← hem, scanOf_finish w h.ordered]
  refine ⟨?_, fillable_of_picked h h.ordered (fun r hr => hr) (fun a _ r hr _ => hr) hp⟩
  exact h.sorted_finish (m := rest.length) (by rw [List.take_length]; exact hem)

theorem Unread.mem_recs (h : Unread recs hist inRange read rest) (hread : ∀ r ∈ read, r ∈ recs) :
    ∀ r ∈ read ++ rest, r ∈ recs := by
  intro r hr
  rcases List.mem_append.mp hr with hr | hr
  · exact hread r hr
  · exact ((h.mem_rest r).mp hr).1

theorem Unread.sorted_of_picks (h : Unread recs hist inRange read rest) {m : Nat} {now : Picks}
    (hp : (scanOf w read).emitted ++ now = (scanOf w (read ++ rest.take m)).emitted ∨
      (scanOf w read).emitted ++ now
        = GroupScan.finish RevRecord.live (scanOf w (read ++ rest.take m))) : PicksSorted now := by
  rcases hp with hp | hp
  · exact (h.fillable_emitted hp.symm).1
  · exact h.sorted_finish hp.symm

/-- 渡した record は、読んだ列にある。 -/
theorem Unread.mem_of_picks (h : Unread recs hist inRange read rest) {m : Nat} {picks : Picks}
    (hp : picks = (scanOf w (read ++ rest.take m)).emitted ∨
      picks = GroupScan.finish RevRecord.live (scanOf w (read ++ rest.take m))) :
    ∀ c ∈ picks, c.1 ∈ read ++ rest := by
  intro c hc
  rcases hp with rfl | rfl
  · rw [scanOf_emitted w (h.ordered_take m)] at hc
    have hmem := (GroupScan.mem_chosen.mp (GroupScan.mem_picked hc).1).1
    exact mem_append_take (GroupScan.mem_closed.mp hmem).1
  · rw [scanOf_finish w (h.ordered_take m)] at hc
    exact mem_append_take (GroupScan.mem_chosen.mp (GroupScan.mem_picked hc).1).1

/-- 同じ snapshot で `m` 個読み進める。 -/
theorem Unread.advance (h : Unread recs hist inRange read rest) (m : Nat) :
    Unread recs hist inRange (read ++ rest.take m) (rest.drop m) := by
  have hsplit : (read ++ rest.take m) ++ rest.drop m = read ++ rest := by
    rw [List.append_assoc, List.take_append_drop]
  have hord : IndexOrdered ((read ++ rest.take m) ++ rest.drop m) := by
    rw [hsplit]; exact h.ordered
  refine ⟨hord, fun r => ⟨fun hr => ?_, fun hr => ?_⟩, ?_, by rw [hsplit]; exact h.mem_hist⟩
  · obtain ⟨h1, h2, -⟩ := (h.mem_rest r).mp (List.mem_of_mem_drop hr)
    refine ⟨h1, h2, fun b hb => ?_⟩
    obtain ⟨z, hz, rfl⟩ := Option.map_eq_some_iff.mp hb
    exact (SortedBy.append_iff.mp hord).2.2 z (List.mem_of_getLast? hz) r hr
  · obtain ⟨h1, h2, h3⟩ := hr
    -- 最後に読んだ鍵より後ろにあるから、読んだ部分にはない
    have hnot : r ∉ read ++ rest.take m := by
      intro hmem
      cases hl : (read ++ rest.take m).getLast? with
      | none => rw [List.getLast?_eq_none_iff.mp hl] at hmem; exact absurd hmem List.not_mem_nil
      | some z =>
        have hle := ((h.ordered_take m).getLast?_eq_some_iff.mp hl).2 r hmem
        exact absurd (h3 (indexKey z.key z.rev) (by simp [lastKey, hl])) (not_lt.mpr hle)
    have hrest : r ∈ rest := by
      refine (h.mem_rest r).mpr ⟨h1, h2, fun b hb => ?_⟩
      obtain ⟨y, hy, rfl⟩ := Option.map_eq_some_iff.mp hb
      have hym : y ∈ read ++ rest.take m := List.mem_append_left _ (List.mem_of_getLast? hy)
      cases hl : (read ++ rest.take m).getLast? with
      | none => rw [List.getLast?_eq_none_iff.mp hl] at hym; exact absurd hym List.not_mem_nil
      | some z =>
        exact lt_of_le_of_lt (((h.ordered_take m).getLast?_eq_some_iff.mp hl).2 y hym)
          (h3 (indexKey z.key z.rev) (by simp [lastKey, hl]))
    rw [← List.take_append_drop m rest] at hrest
    rcases List.mem_append.mp hrest with ht | hd
    · exact absurd (List.mem_append_right _ ht) hnot
    · exact hd
  · intro r hr
    exact h.inRange_all r (mem_append_take hr)

end Fill

/-! ## ほかの transaction が挟まらない走査 -/

/-- pin した revision の窓。 -/
def pinWindow (maxRevision : Int) (rev : Versionstamp) : Bool :=
  decide (maxRevision = 0 ∨ versionstampToInt64 rev ≤ maxRevision)

section Static

variable {σ : Type} {p : InnerProcessor σ} {spec : InnerSpec p} {cfg : Config} {db : Db}
  {recs hist : List RevRecord} {prefix_ startKey : Key} {range : Bytes × Bytes}

/-- `firstRev` は最新の revision なので、窓を狭めない。 -/
theorem inWindow_eq_pinWindow {c : RecordCollector σ} (hb : db.Bounded cfg recs)
    (hf : c.firstRev = 0 ∨ c.firstRev = db.getLatestRev cfg) {r : RevRecord} (hr : r ∈ recs) :
    c.inWindow r.rev = pinWindow c.maxRevision r.rev := by
  have hle := hb.le r hr
  have hfirst : (c.firstRev = 0 ∨ versionstampToInt64 r.rev ≤ c.firstRev) := by
    rcases hf with h0 | hl
    · exact Or.inl h0
    · exact Or.inr (hl ▸ hle)
  unfold RecordCollector.inWindow pinWindow
  rw [decide_eq_true hfirst, Bool.and_true]

/-- `m` 個より少なく読んだところでは、内側の collector がまだ欲しがっていること。 -/
def WantsBefore (spec : InnerSpec p) (w : Versionstamp → Bool) (all : List RevRecord) (m : Nat) : Prop :=
  spec.wants 0 = true → ∀ j < m, spec.wants (scanOf w (all.take j)).emitted.length = true

/-- batch の中の `StillWants` を、走査の始めからのものにする。 -/
theorem WantsBefore.extend {w : Versionstamp → Bool} {read rest : List RevRecord} {m : Nat}
    (h : WantsBefore spec w (read ++ rest) (read.length + 1))
    (hs : ∀ j < m, StillWants spec w (scanOf w read).emitted (read ++ rest.take j)) :
    WantsBefore spec w (read ++ rest) (read.length + m) := by
  intro h0 j hj
  by_cases hle : j ≤ read.length
  · exact h h0 j (Nat.lt_succ_of_le hle)
  · obtain ⟨i, rfl⟩ := Nat.exists_eq_add_of_le (not_le.mp hle).le
    rw [List.take_length_add_append]
    rcases hs i (by omega) with hsame | hwant
    · -- この batch でまだ何も渡していなければ、batch の始めと同じである
      have hstart := h h0 read.length (Nat.lt_succ_self _)
      rw [List.take_left] at hstart
      rw [hsame]
      exact hstart
    · exact hwant

/-- 走査の終わり。`all` は範囲のすべての record である。 -/
inductive ScanResult (spec : InnerSpec p) (cfg : Config) (db : Db) (recs : List RevRecord)
    (maxRevision : Int) (all : List RevRecord) (call : ListCall σ) : Prop
  | finished (hdone : call.status = .done) (hfirst : call.collector.firstRev = db.getLatestRev cfg)
      (hnp : ¬ PinCompacted maxRevision db)
      (hrec : spec.Received call.collector.inner (pickedOf (pinWindow maxRevision) all))
      (hwants : WantsBefore spec (pinWindow maxRevision) all (all.length + 1))
  | sated (m : Nat) (hdone : call.status = .done)
      (hfirst : call.collector.firstRev = db.getLatestRev cfg)
      (hnp : ¬ PinCompacted maxRevision db)
      (hw : spec.wants (scanOf (pinWindow maxRevision) (all.take m)).emitted.length = false)
      (hrec : spec.Received call.collector.inner (pickedOf (pinWindow maxRevision) (all.take m)))
      (hwants : WantsBefore spec (pinWindow maxRevision) all m)
  | compacted (hfail : call.status = .failed .compacted) (hc : PinCompacted maxRevision db)
  | broken (e : Err) (inner inner' : σ) (done now : Picks) (hin : spec.InBatch inner done now)
      (hend : p.endBatch inner db = (inner', .error e)) (hs : PicksSorted now)
      (hnow : ∀ c ∈ now, c.1 ∈ recs)

/-- どの切れ目でも、渡した record が仕上がること。 -/
structure AlwaysReady (spec : InnerSpec p) (db : Db) (recs hist : List RevRecord)
    (inRange : Key → Bool) (w : Versionstamp → Bool) : Prop where
  mid : ∀ {read rest m now}, Unread recs hist inRange read rest →
    (scanOf w (read ++ rest.take m)).emitted = (scanOf w read).emitted ++ now →
    spec.Ready db (scanOf w read).emitted now
  last : ∀ {read rest now}, Unread recs hist inRange read rest →
    GroupScan.finish RevRecord.live (scanOf w (read ++ rest)) = (scanOf w read).emitted ++ now →
    spec.Ready db (scanOf w read).emitted now
  sated : ∀ {read rest m now}, Unread recs hist inRange read rest →
    spec.wants (scanOf w (read ++ rest.take m)).emitted.length = false →
    GroupScan.finish RevRecord.live (scanOf w (read ++ rest.take m))
      = (scanOf w read).emitted ++ now → spec.Ready db (scanOf w read).emitted now

/-- 途中の走査の batch は、残りの列を読む。 -/
theorem Unread.batch (cfg : Config) {call : ListCall σ} {read rest : List RevRecord}
    {w : Versionstamp → Bool} (hu : Unread recs hist (inListRange prefix_ startKey) read rest)
    (htr : db.Holds recs) (hr : listRange prefix_ startKey = .ok range)
    (hscan : ScanInv spec w call read)
    (hready : AlwaysReady spec db recs hist (inListRange prefix_ startKey) w)
    (hw : ∀ r ∈ recs, call.collector.inWindow r.rev = w r.rev) (n : Nat) :
    (call.batch (RecordCollector.processor p cfg) (indexRange range) n db).2 = db ∧
      ScanBatch spec w cfg db n call read rest
        (call.batch (RecordCollector.processor p cfg) (indexRange range) n db).1 := by
  obtain ⟨rest', hrange, hord', hmem'⟩ := exists_rest htr hr call.beginKey
  have hrest : rest' = rest := by
    refine SortedBy.eq_of_mem_iff hord' (SortedBy.append_iff.mp hu.ordered).2.1 (fun r => ?_)
    rw [hmem', hu.mem_rest, hscan.begin_]
  subst hrest
  exact scan_batch cfg hscan hrange (fun a ha => hw a ((hu.mem_rest a).mp ha).1)
    (fun now _ hem => hready.mid hu hem) (fun now hem => hready.last hu hem)
    (fun m now _ hwant hem => hready.sated hu hwant hem)

/-- `List`、`Get`、`Count` の走査。batch の切れ目は結果に現れない。 -/
theorem processRange_scan (htr : db.Holds recs) (hb : db.Bounded cfg recs)
    (hr : listRange prefix_ startKey = .ok range) {maxRevision : Int}
    (hready : AlwaysReady spec db recs hist (inListRange prefix_ startKey) (pinWindow maxRevision))
    (splits : Nat → Nat) : ∀ (fuel i : Nat) {call : ListCall σ} {read rest : List RevRecord},
    ScanInv spec (pinWindow maxRevision) call read →
    Unread recs hist (inListRange prefix_ startKey) read rest → (∀ r ∈ read, r ∈ recs) →
    call.collector.maxRevision = maxRevision →
    (call.collector.firstRev = 0 ∨ call.collector.firstRev = db.getLatestRev cfg) →
    WantsBefore spec (pinWindow maxRevision) (read ++ rest) (read.length + 1) → rest.length < fuel →
    ScanResult spec cfg db recs maxRevision (read ++ rest)
      (processRange (RecordCollector.processor p cfg) (indexRange range) splits fuel i call db).1
  | 0, i, call, read, rest, _, _, _, _, _, _, hfuel => absurd hfuel (Nat.not_lt_zero _)
  | fuel + 1, i, call, read, rest, hinv, hu, hread, hmax, hfirst, hwants, hfuel => by
    have hall := hu.mem_recs hread
    obtain ⟨hdb, hbatch⟩ := hu.batch cfg htr hr hinv hready
      (fun r hr => hmax ▸ inWindow_eq_pinWindow hb hfirst hr) (splits i)
    rw [processRange, if_pos hinv.running]
    simp only
    rw [hdb]
    have hlatest : ∀ {call' : ListCall σ}, Advanced cfg db call call' →
        call'.collector.firstRev = db.getLatestRev cfg := by
      intro call' hadv
      rw [hadv.firstRev]
      rcases hfirst with h0 | hl
      · rw [if_pos h0]
      · split
        · rfl
        · exact hl
    cases hbatch with
    | continued hn hadv hinv' hsw =>
      have hsplit : (read ++ rest.take (splits i + 1)) ++ rest.drop (splits i + 1) = read ++ rest := by
        rw [List.append_assoc, List.take_append_drop]
      have hres := processRange_scan htr hb hr hready splits fuel (i + 1) hinv'
        (hu.advance (splits i + 1)) (fun r hr => hall r (mem_append_take hr))
        (hadv.maxRevision.trans hmax) (Or.inr (hlatest hadv))
        (by
          rw [hsplit, List.length_append, List.length_take_of_le hn]
          exact hwants.extend fun j hj => hsw j (Nat.le_of_lt_succ hj))
        (by rw [List.length_drop]; omega)
      rw [hsplit] at hres
      exact hres
    | finished hn hadv hdone hrec hsw =>
      rw [processRange_of_ne_running (by rw [hdone]; decide)]
      rw [scanOf_finish _ hu.ordered] at hrec
      refine .finished hdone (hlatest hadv) (hmax ▸ hadv.notCompacted) hrec ?_
      rw [List.length_append]
      exact hwants.extend fun j hj => hsw j (Nat.le_of_lt_succ hj)
    | sated m hm hadv hdone hne hwant hrec hsw =>
      rw [processRange_of_ne_running (by rw [hdone]; decide)]
      rw [scanOf_finish _ (hu.ordered_take m)] at hrec
      have htake : (read ++ rest).take (read.length + m) = read ++ rest.take m := by
        rw [List.take_length_add_append]
      refine .sated (read.length + m) hdone (hlatest hadv) (hmax ▸ hadv.notCompacted) ?_ ?_
        (hwants.extend hsw)
      · rw [htake]; exact hwant
      · rw [htake]; exact hrec
    | compacted hfail hc picks hrec m hm hpicks =>
      rw [processRange_of_ne_running (by rw [hfail]; decide)]
      exact .compacted hfail (hmax ▸ hc)
    | broken e hfail inner inner' now hin hend m hm hnow =>
      exact .broken e inner inner' _ now hin hend (hu.sorted_of_picks hnow)
        fun c hc => hall _ (hu.mem_of_picks hnow c (List.mem_append_right _ hc))

theorem scanInv_start {inner : σ} (w : Versionstamp → Bool) (maxRevision : Int)
    (h : spec.Received inner []) :
    ScanInv spec w (.start (newRecordCollector maxRevision inner)) [] :=
  ⟨rfl, rfl, rfl, h⟩

/-- 範囲のすべての record を索引の順に並べたもの。 -/
structure RangeRecs (recs : List RevRecord) (prefix_ startKey : Key) (all : List RevRecord) : Prop where
  ordered : IndexOrdered all
  mem_iff : ∀ r, r ∈ all ↔ r ∈ recs ∧ inListRange prefix_ startKey r.key = true

theorem exists_rangeRecs (h : db.Holds recs) (prefix_ startKey : Key) :
    ∃ all, RangeRecs recs prefix_ startKey all := by
  obtain ⟨l, -, ho, hm⟩ := exists_indexed h (fun k => inListRange prefix_ startKey k.key)
  exact ⟨l, ho, hm⟩

theorem RangeRecs.unread {all : List RevRecord} (h : RangeRecs recs prefix_ startKey all)
    (hsub : ∀ r ∈ recs, r ∈ hist) :
    Unread recs hist (inListRange prefix_ startKey) [] all where
  ordered := h.ordered
  mem_rest := fun r => by rw [h.mem_iff]; simp [lastKey]
  inRange := fun r hr => absurd hr List.not_mem_nil
  mem_hist := fun r hr => hsub r ((h.mem_iff r).mp hr).1

/-- 範囲の record は索引の entry より多くない。 -/
theorem RangeRecs.length_le {all : List RevRecord} (h : RangeRecs recs prefix_ startKey all)
    (hh : db.Holds recs) : all.length ≤ db.byKeyAndRevision.entries.length := by
  have hnd : (all.map indexEntry).Nodup := by
    have hs : SortedBy Prod.fst (all.map indexEntry) :=
      (SortedBy.map_iff (f := Prod.fst) (g := indexEntry)).mpr h.ordered
    exact hs.nodup
  have hsub : ∀ e ∈ all.map indexEntry, e ∈ db.byKeyAndRevision.entries := by
    intro e he
    obtain ⟨r, hr, rfl⟩ := List.mem_map.mp he
    exact (hh.index _).mpr ⟨r, ((h.mem_iff r).mp hr).1, rfl⟩
  rw [← List.length_map (f := indexEntry)]
  exact (List.subperm_of_subset hnd hsub).length_le

/-- 成功した走査の答え。 -/
def pinAnswer {α : Type} (cfg : Config) (db : Db) (maxRevision : Int) (x : α) : Except Err (Int × α) :=
  if PinCompacted maxRevision db then .error .compacted
  else if db.getLatestRev cfg < maxRevision then .error .futureRev
  else .ok (db.getLatestRev cfg, x)

/-- 成功するか、どの error になるかは、答えの中身によらない。 -/
theorem pinAnswer_cases {α β : Type} (cfg : Config) (db : Db) (maxRevision : Int) (x : α) (y : β) :
    (∃ e, pinAnswer cfg db maxRevision x = .error e ∧ pinAnswer cfg db maxRevision y = .error e) ∨
      (pinAnswer cfg db maxRevision x = .ok (db.getLatestRev cfg, x) ∧
        pinAnswer cfg db maxRevision y = .ok (db.getLatestRev cfg, y)) := by
  unfold pinAnswer
  split
  · exact Or.inl ⟨_, rfl, rfl⟩
  · split
    · exact Or.inl ⟨_, rfl, rfl⟩
    · exact Or.inr ⟨rfl, rfl⟩

theorem pinAnswer_map {α β : Type} (maxRevision : Int) (f : α → β) (x : α) :
    (pinAnswer cfg db maxRevision x).map (fun y => (y.1, f y.2))
      = pinAnswer cfg db maxRevision (f x) := by
  rcases pinAnswer_cases cfg db maxRevision x (f x) with ⟨e, h1, h2⟩ | ⟨h1, h2⟩
  · rw [h1, h2]; rfl
  · rw [h1, h2]; rfl

theorem pinAnswer_congr {α : Type} {maxRevision : Int} {x y : α}
    (h : PinCompacted maxRevision db ∨ x = y) :
    pinAnswer cfg db maxRevision x = pinAnswer cfg db maxRevision y := by
  rcases h with h | rfl
  · unfold pinAnswer
    rw [if_pos h, if_pos h]
  · rfl

/-- 走査の答えを、選ばれた record について述べる。 -/
theorem listWithCollector_eq (htr : db.Tracks recs hist) (hb : db.Bounded cfg recs)
    (hr : listRange prefix_ startKey = .ok range) {all : List RevRecord}
    (hall : RangeRecs recs prefix_ startKey all) {maxRevision : Int}
    (hready : AlwaysReady spec db recs hist (inListRange prefix_ startKey) (pinWindow maxRevision))
    (hnb : ∀ {inner inner' done now e}, spec.InBatch inner done now → PicksSorted now →
      (∀ c ∈ now, c.1 ∈ recs) → p.endBatch inner db ≠ (inner', .error e))
    {inner : σ} (h0 : spec.Received inner []) (splits : Nat → Nat) :
    ∃ inner', listWithCollector cfg p inner prefix_ startKey maxRevision splits db
        = pinAnswer cfg db maxRevision inner' ∧
      (PinCompacted maxRevision db ∨
        (spec.Received inner' (pickedOf (pinWindow maxRevision) all) ∧
          WantsBefore spec (pinWindow maxRevision) all (all.length + 1)) ∨
        ∃ m, spec.wants (scanOf (pinWindow maxRevision) (all.take m)).emitted.length = false ∧
          spec.Received inner' (pickedOf (pinWindow maxRevision) (all.take m)) ∧
          WantsBefore spec (pinWindow maxRevision) all m) := by
  have hres := processRange_scan htr.holds hb hr hready splits
    (db.byKeyAndRevision.entries.length + 1) 0 (scanInv_start _ maxRevision h0)
    (hall.unread htr.sub) (fun r hr => absurd hr List.not_mem_nil) rfl (Or.inl rfl)
    (fun h0 j hj => by rw [Nat.lt_one_iff.mp hj]; exact h0)
    (Nat.lt_succ_of_le (hall.length_le htr.holds))
  unfold listWithCollector listResult pinAnswer
  simp only [hr]
  cases hres with
  | finished hdone hfirst hnp hrec hwants =>
    refine ⟨_, ?_, Or.inr (Or.inl ⟨hrec, hwants⟩)⟩
    simp only [hdone, hfirst]
    rw [if_neg hnp]
  | sated m hdone hfirst hnp hw hrec hwants =>
    refine ⟨_, ?_, Or.inr (Or.inr ⟨m, hw, hrec, hwants⟩)⟩
    simp only [hdone, hfirst]
    rw [if_neg hnp]
  | compacted hfail hc =>
    refine ⟨inner, ?_, Or.inl hc⟩
    simp only [hfail]
    rw [if_pos hc]
  | broken e inner₁ inner₂ done now hin hend hs hnow => exact absurd hend (hnb hin hs hnow)

end Static

/-! ## List、Get、Count -/

theorem mem_of_mem_within {α : Type} {limit : Int} {k : Nat} {l : List α} {a : α}
    (h : a ∈ within limit k l) : a ∈ l := by
  unfold within at h
  split at h
  · exact h
  · exact List.mem_of_mem_take h

section Queries

variable {cfg : Config} {db : Db} {recs hist : List RevRecord} {prefix_ startKey : Key}
  {range : Bytes × Bytes} {all : List RevRecord}

theorem listSpec_ready (htr : db.Tracks recs hist) (keysOnly : Bool) (limit : Int)
    (inRange : Key → Bool) (w : Versionstamp → Bool) :
    AlwaysReady (listSpec cfg keysOnly limit) db recs hist inRange w where
  mid hu hem := by
    obtain ⟨hs, hf⟩ := hu.fillable_emitted hem
    exact ⟨recs, hist, htr, hs, fun c hc => hf c (mem_of_mem_within hc)⟩
  last hu hem := by
    obtain ⟨hs, hf⟩ := hu.fillable_finish hem
    exact ⟨recs, hist, htr, hs, fun c hc => hf c (mem_of_mem_within hc)⟩
  sated := by
    intro read rest m now hu hw hem
    refine ⟨recs, hist, htr, hu.sorted_finish hem, fun c hc => ?_⟩
    simp only [listSpec, Bool.or_eq_false_iff, decide_eq_false_iff_not, not_lt] at hw
    -- `limit` までに入るのは、止まる前に渡したものである
    obtain ⟨t, ht⟩ : (scanOf w read).emitted <+: (scanOf w (read ++ rest.take m)).emitted :=
      GroupScan.emitted_isPrefix_scan _ _
    have hnow : now = t ++ (scanOf w (read ++ rest.take m)).candidate.toList.filter
        (fun c => RevRecord.live c.1) := by
      unfold GroupScan.finish at hem
      rw [← ht, List.append_assoc] at hem
      exact (List.append_cancel_left hem).symm
    rw [← ht, List.length_append] at hw
    rw [hnow, within_append_of_le _ hw.1 hw.2] at hc
    exact (hu.fillable_emitted ht.symm).2 c (mem_of_mem_within hc)

theorem capacityFits_zero : capacityFits 0 = true := rfl

theorem capacityFits_one : capacityFits 1 = true := rfl

/-- 大きすぎる `limit` は、何も読まずに panic する。 -/
theorem list_of_not_fits {limit : Int} (hl : capacityFits limit = false) (revision : Int)
    (keysOnly : Bool) (splits : Nat → Nat) :
    list cfg prefix_ startKey limit revision keysOnly splits db = .error .capOutOfRange := by
  unfold list
  rw [if_neg (Bool.eq_false_iff.mp hl)]

theorem list_of_pinAnswer {limit revision : Int} {keysOnly : Bool} {splits : Nat → Nat}
    {c : ListCollector} (hl : capacityFits limit = true) (h : listWithCollector cfg listProcessor (newListCollector limit keysOnly)
      prefix_ startKey revision splits db = pinAnswer cfg db revision c) :
    list cfg prefix_ startKey limit revision keysOnly splits db
      = pinAnswer cfg db revision (toKeyValues cfg c.records) := by
  unfold list
  rw [if_pos hl]
  rcases pinAnswer_cases cfg db revision c (toKeyValues cfg c.records) with ⟨e, h1, h2⟩ | ⟨h1, h2⟩
  · simp only [h, h1, h2]
  · simp only [h, h1, h2]

theorem list_noBreak (h : db.Holds recs) {s s' : ListCollector} {now : Picks} {e : Err}
    (hb : s.batchRecords = now.map mark) (hs : PicksSorted now) (hnow : ∀ c ∈ now, c.1 ∈ recs) :
    listProcessor.endBatch s db ≠ (s', .error e) := by
  intro hend
  obtain ⟨-, x, hx, hne⟩ := list_endBatch_error h hb hs hend
  exact hne (hnow x hx)

/-- 途中で止めても、`limit` までに入るものは同じである。 -/
theorem within_pickedOf_take {w : Versionstamp → Bool} (hord : IndexOrdered all) {m : Nat}
    {limit : Int} (h0 : limit ≠ 0) (hle : limit ≤ ((scanOf w (all.take m)).emitted.length : Nat)) :
    within limit 0 (pickedOf w (all.take m)) = within limit 0 (pickedOf w all) := by
  have htake : IndexOrdered (all.take m) := hord.sublist (List.take_sublist m all)
  obtain ⟨t, ht⟩ : (scanOf w (all.take m)).emitted <+: (scanOf w all).emitted := by
    have hpre : (scanOf w (all.take m)).emitted <+: (scanOf w (all.take m ++ all.drop m)).emitted :=
      GroupScan.emitted_isPrefix_scan _ _
    rwa [List.take_append_drop] at hpre
  rw [← scanOf_finish w htake, ← scanOf_finish w hord]
  unfold GroupScan.finish
  rw [← ht, List.append_assoc, within_append_of_le _ h0 (by omega),
    within_append_of_le _ h0 (by omega)]

/-- `List` の答え。`limit` までに入るものは走査がどこで止まっても同じで、返す数は止まったところで決まる。 -/
theorem list_stops (htr : db.Tracks recs hist) (hb : db.Bounded cfg recs)
    (hr : listRange prefix_ startKey = .ok range) (hall : RangeRecs recs prefix_ startKey all)
    {limit : Int} (hl : capacityFits limit = true) (revision : Int) (keysOnly : Bool)
    (splits : Nat → Nat) :
    ∃ kvs, list cfg prefix_ startKey limit revision keysOnly splits db
        = pinAnswer cfg db revision kvs ∧
      (PinCompacted revision db ∨
        (within limit 0 kvs = within limit 0 ((chosenOf (pinWindow revision) all).map
          (fun r => kvOf cfg (r.listed keysOnly))) ∧
        ((kvs.length = (pickedOf (pinWindow revision) all).length ∧
            WantsBefore (listSpec cfg keysOnly limit) (pinWindow revision) all (all.length + 1)) ∨
          ∃ m, (listSpec cfg keysOnly limit).wants
              (scanOf (pinWindow revision) (all.take m)).emitted.length = false ∧
            kvs.length = (pickedOf (pinWindow revision) (all.take m)).length ∧
            WantsBefore (listSpec cfg keysOnly limit) (pinWindow revision) all m))) := by
  obtain ⟨c, hc, hrec⟩ := listWithCollector_eq htr hb hr hall
    (listSpec_ready htr keysOnly limit _ _)
    (fun hin hs hnow => list_noBreak htr.holds hin.2 hs hnow)
    (show (listSpec cfg keysOnly limit).Received (newListCollector limit keysOnly) [] from
      ⟨rfl, rfl, rfl, rfl⟩) splits
  refine ⟨toKeyValues cfg c.records, list_of_pinAnswer hl hc, ?_⟩
  have hlen : (toKeyValues cfg c.records).length = c.records.length := List.length_map _
  rw [← pickedOf_fst, List.map_map, hlen]
  rcases hrec with hpin | ⟨⟨-, -, hcount, hrec⟩, hwants⟩ | ⟨m, hw, ⟨-, -, hcount, hrec⟩, hwants⟩
  · exact Or.inl hpin
  · exact Or.inr ⟨hrec, Or.inl ⟨hcount, hwants⟩⟩
  · refine Or.inr ⟨hrec.trans ?_, Or.inr ⟨m, hw, hcount, hwants⟩⟩
    simp only [listSpec, Bool.or_eq_false_iff, decide_eq_false_iff_not, not_lt] at hw
    rw [within_map, within_map, within_pickedOf_take hall.ordered hw.1 hw.2]
    rfl

/-- `List` の答え。`limit` を超えて返したものは数えない。 -/
theorem list_within (htr : db.Tracks recs hist) (hb : db.Bounded cfg recs)
    (hr : listRange prefix_ startKey = .ok range) (hall : RangeRecs recs prefix_ startKey all)
    {limit : Int} (hl : capacityFits limit = true) (revision : Int) (keysOnly : Bool)
    (splits : Nat → Nat) :
    ∃ kvs, list cfg prefix_ startKey limit revision keysOnly splits db
        = pinAnswer cfg db revision kvs ∧
      (PinCompacted revision db ∨ within limit 0 kvs
        = within limit 0 ((chosenOf (pinWindow revision) all).map
          (fun r => kvOf cfg (r.listed keysOnly)))) := by
  obtain ⟨kvs, hkvs, hstop⟩ := list_stops htr hb hr hall hl revision keysOnly splits
  exact ⟨kvs, hkvs, hstop.imp_right And.left⟩

/-- `Get` の答えは、範囲から選ばれる record の先頭である。 -/
theorem get_eq_head {key : Key} (htr : db.Tracks recs hist) (hb : db.Bounded cfg recs)
    (hr : listRange key key = .ok range) (hall : RangeRecs recs key key all)
    (revision : Int) (keysOnly : Bool) (splits : Nat → Nat) :
    get cfg key [] revision keysOnly splits db
      = pinAnswer cfg db revision ((chosenOf (pinWindow revision) all).map
        (fun r => kvOf cfg (r.listed keysOnly))).head? := by
  obtain ⟨kvs, hkvs, hw⟩ := list_within htr hb hr hall capacityFits_one revision keysOnly splits
  have hhead : ∀ l : List KeyValue, (within 1 0 l).head? = l.head? := fun l => by
    cases l <;> rfl
  have hw' := hw.imp_right (fun h => (hhead _).symm.trans ((congrArg List.head? h).trans (hhead _)))
  rw [← pinAnswer_congr hw']
  unfold get
  rw [if_neg (by simp), hkvs]
  rcases pinAnswer_cases cfg db revision kvs kvs.head? with ⟨e, h1, h2⟩ | ⟨h1, h2⟩
  · simp only [h1, h2]
  · simp only [h1, h2]

/-- `Count` の走査の答え。 -/
theorem countScan_eq (htr : db.Tracks recs hist) (hb : db.Bounded cfg recs)
    (hr : listRange prefix_ startKey = .ok range) (hall : RangeRecs recs prefix_ startKey all)
    (revision : Int) (splits : Nat → Nat) :
    countScan cfg prefix_ startKey revision splits db
      = pinAnswer cfg db revision (chosenOf (pinWindow revision) all).length := by
  obtain ⟨c, hc, hrec⟩ := listWithCollector_eq htr hb hr hall
    ⟨fun _ _ => trivial, fun _ _ => trivial, fun _ _ _ => trivial⟩
    (fun _ _ _ hend => by cases hend) (show countSpec.Received ⟨0, 0⟩ [] from rfl) splits
  have hcount : PinCompacted revision db ∨
      c.totalCount = (chosenOf (pinWindow revision) all).length := by
    rw [← pickedOf_fst, List.length_map]
    rcases hrec with hpin | ⟨hrec, -⟩ | ⟨m, hw, -⟩
    · exact Or.inl hpin
    · exact Or.inr hrec
    · exact absurd hw (by simp [countSpec])
  rw [← pinAnswer_congr hcount]
  unfold countScan
  rcases pinAnswer_cases cfg db revision c c.totalCount with ⟨e, h1, h2⟩ | ⟨h1, h2⟩
  · simp only [hc, h1, h2]
  · simp only [hc, h1, h2]

end Queries

end KubeFdb
