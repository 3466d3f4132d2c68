import KubeFdb.System.TrackedCounts

/-!
# tracker から返る revision と数

`Count` は tracker の entry を読み、次に cursor `lastWatchRev` を読んで、その組を返す。poll の loop は batch を
tracker に反映し、channel に渡し、それから cursor を進める。渡すところで loop は待たされるので、二つの読み出しの
間にも、反映と前進の間にも、もう一方の手が挟まる。

* 反映の後に entry を読み、前進の前に cursor を読むと、新しい数に古い revision が付く
* 反映の前に entry を読み、前進の後に cursor を読むと、古い数に新しい revision が付く

entry の数が表す revision と、返す cursor の間の record で、prefix に合う作成と削除が釣り合うとき、そのときに限り、
組は正しい（`count_pairs_exact_iff`）。

entry はどれも入れたときに正しいとする（`PairAssumed`）。compaction は loop の読んでいない record を消さず、書き込みは
鍵の生死を履歴の通りに見るとする。compaction のない run ではどちらも成り立つ。
-/

namespace KubeFdb

open Tuple

/-- tracker の entry を読み、まだ cursor を読んでいない `Count`。 -/
structure TrackedRead where
  prefix_ : Key
  entry : CountEntry
  /-- 読んだときまでに tracker に反映された revision の ghost。 -/
  appliedTo : Int
deriving DecidableEq

/-- `Count` の答え。 -/
structure CountAnswer where
  prefix_ : Key
  rev : Int
  count : Int
deriving DecidableEq

/-- store と poll の loop と、tracker から答える `Count`。 -/
structure PairSys where
  shim : Shim
  reads : List TrackedRead
  /-- これまでに返した答え。 -/
  answers : List CountAnswer
deriving DecidableEq

def PairSys.init : PairSys := ⟨.init, [], []⟩

inductive PairLabel where
  | shim (a : ShimLabel)
  /-- 走査を終えた `Count` が entry を入れる。 -/
  | seed (prefix_ : Key) (count seedRev : Int)
  /-- `counts.get`。 -/
  | get (prefix_ : Key)
  /-- `lastWatchRev.Load`。 -/
  | load (i : Nat)
deriving DecidableEq

/-- 一手。entry がないか、cursor が `seedRev` に届いていなければ、`Count` は走査に移る。 -/
def PairSys.step (cfg : Config) (s : PairSys) : PairLabel → Option PairSys
  | .shim a => (s.shim.step cfg a).map (fun t => { s with shim := t })
  | .seed prefix_ count seedRev =>
    -- `cacheable` な `Count` は loop が始まった後にしかない
    if s.shim.poll = .init then none
    else
      some { s with
        shim := { s.shim with
          poll := { s.shim.poll with counts := s.shim.poll.counts.seed prefix_ count seedRev } } }
  | .get prefix_ =>
    match s.shim.poll.counts.get? prefix_ with
    | some e => some { s with reads := s.reads ++ [⟨prefix_, e, s.shim.poll.appliedTo⟩] }
    | none => none
  | .load i =>
    match s.reads[i]? with
    | some r =>
      some { s with
        reads := s.reads.eraseIdx i
        answers :=
          if r.entry.seedRev ≤ s.shim.poll.lastWatchRev then
            s.answers ++ [⟨r.prefix_, s.shim.poll.lastWatchRev, r.entry.count⟩]
          else s.answers }
    | none => none

/-- 数が、その revision の store で生きている、prefix に合う鍵の数であること。 -/
def CountAnswer.Exact (hist : List RevRecord) (a : CountAnswer) : Prop :=
  a.count = (liveKeys a.prefix_ (atMost RevRecord.revision hist a.rev)).card

instance (hist : List RevRecord) (a : CountAnswer) : Decidable (a.Exact hist) :=
  inferInstanceAs (Decidable (_ = _))

def PairSys.AnswersExact (s : PairSys) : Prop :=
  ∀ a ∈ s.answers, a.Exact s.shim.store.committed

instance (s : PairSys) : Decidable s.AnswersExact := inferInstanceAs (Decidable (∀ a ∈ _, _))

/-- 環境についての仮定。入れる entry は正しく、書き込みは鍵の生死を履歴の通りに見て、compaction は loop の
読んでいない record を消さない。 -/
def PairAssumed (cfg : Config) (s : PairSys) : PairLabel → Prop
  | .seed prefix_ count seedRev => s.shim.poll.counts.get? prefix_ = none →
      seedRev ≤ s.shim.store.db.getLatestRev cfg ∧
        CountEntry.ExactAt s.shim.store.committed prefix_ s.shim.poll.appliedTo ⟨count, seedRev⟩
  | .shim (.store (.write op _ _ _)) =>
      (s.shim.store.db.getLast op.key).any RevRecord.live = isLive s.shim.store.committed op.key
  | .shim (.store (.compactBatch i n v known)) =>
      SparesUnpolled s.shim (.store (.compactBatch i n v known))
  | _ => True

instance (cfg : Config) (s : PairSys) : (a : PairLabel) → Decidable (PairAssumed cfg s a)
  | .seed _ _ _ => inferInstanceAs (Decidable (_ → _ ≤ _ ∧ _ = _))
  | .shim (.store (.write _ _ _ _)) => inferInstanceAs (Decidable (_ = _))
  | .shim (.store (.compactBatch i n v known)) =>
      inferInstanceAs (Decidable (SparesUnpolled s.shim (.store (.compactBatch i n v known))))
  | .shim (.store (.tick _)) => .isTrue trivial
  | .shim (.store (.startCompact _)) => .isTrue trivial
  | .shim (.poll _) => .isTrue trivial
  | .get _ => .isTrue trivial
  | .load _ => .isTrue trivial

/-- 二つの revision の間の record で、prefix に合う作成と削除が同じ数であること。 -/
def Balanced (hist : List RevRecord) (prefix_ : Key) (A B : Int) : Prop :=
  createdIn prefix_ (between RevRecord.revision hist (min A B) (max A B))
    = deletedIn prefix_ (between RevRecord.revision hist (min A B) (max A B))

instance (hist : List RevRecord) (prefix_ : Key) (A B : Int) : Decidable (Balanced hist prefix_ A B) :=
  inferInstanceAs (Decidable (_ = _))

/-- cursor を読む手の前の条件。entry の数が表す revision と cursor の間で、作成と削除が釣り合っている。 -/
def LoadsBalanced (s : PairSys) : PairLabel → Prop
  | .load i => ∀ r ∈ s.reads[i]?, r.entry.seedRev ≤ s.shim.poll.lastWatchRev →
      Balanced s.shim.store.committed r.prefix_ (max r.entry.seedRev r.appliedTo)
        s.shim.poll.lastWatchRev
  | _ => True

instance (s : PairSys) : (a : PairLabel) → Decidable (LoadsBalanced s a)
  | .load i => inferInstanceAs (Decidable (∀ r ∈ s.reads[i]?, _ → _))
  | .shim _ => .isTrue trivial
  | .seed _ _ _ => .isTrue trivial
  | .get _ => .isTrue trivial

variable {cfg : Config} {hist recs recs' : List RevRecord} {st' : Store} {p' : Poll}

/-! ## 区間の釣り合い -/

/-- 釣り合っていることは、両端で生きている鍵の数が等しいことと同じである。 -/
theorem balanced_iff (hs : SortedBy RevRecord.revision hist) (hch : Chained hist) (prefix_ : Key)
    (A B : Int) : Balanced hist prefix_ A B ↔
      (liveKeys prefix_ (atMost RevRecord.revision hist A)).card
        = (liveKeys prefix_ (atMost RevRecord.revision hist B)).card := by
  unfold Balanced
  rcases le_total A B with hle | hle
  · have hcard := card_liveKeys_between hs hch prefix_ hle
    rw [min_eq_left hle, max_eq_right hle]
    omega
  · have hcard := card_liveKeys_between hs hch prefix_ hle
    rw [min_eq_right hle, max_eq_left hle]
    omega

/-- 鍵の生死が同じ列には、同じ record が続く。 -/
theorem Follows.congr {l l' : List RevRecord} {r : RevRecord} (h : Follows l r)
    (hl : isLive l r.key = isLive l' r.key) : Follows l' r where
  create hc := ⟨(h.create hc).1, hl ▸ (h.create hc).2⟩
  other hc := hl ▸ h.other hc

/-! ## 不変条件 -/

/-- run を通して保つもの。 -/
structure PairSys.Inv (cfg : Config) (s : PairSys) (recs : List RevRecord) : Prop where
  shim : s.shim.Inv cfg recs
  chained : Chained s.shim.store.committed
  counts : CountsExact cfg s.shim.store s.shim.poll
  cursor : s.shim.poll.lastWatchRev ≤ s.shim.store.db.getLatestRev cfg
  /-- 読んだ entry は、読んだときの revision の数を持つ。 -/
  reads : ∀ r ∈ s.reads, max r.entry.seedRev r.appliedTo ≤ s.shim.store.db.getLatestRev cfg ∧
    r.entry.ExactAt s.shim.store.committed r.prefix_ r.appliedTo
  answers : ∀ a ∈ s.answers, a.rev ≤ s.shim.store.db.getLatestRev cfg

theorem PairSys.init_inv (cfg : Config) : PairSys.init.Inv cfg [] where
  shim := Shim.init_inv cfg
  chained := chained_nil
  counts := countsExact_of_fresh rfl
  cursor := (Store.init_inv cfg).bounded.pos.le
  reads _ h := absurd h List.not_mem_nil
  answers _ h := absurd h List.not_mem_nil

/-- 反映した revision は最新の revision を超えない。 -/
theorem Shim.Inv.appliedTo_le {s : Shim} (h : s.Inv cfg recs) :
    s.poll.appliedTo ≤ s.store.db.getLatestRev cfg := by
  cases hor : s.origin with
  | none =>
    rw [h.fresh hor]
    exact h.store.bounded.pos.le
  | some start =>
    have hp := h.polled start hor
    exact (Poll.appliedTo_le hp.cursor_le).trans hp.position_le

/-- cursor は最新の revision を超えない。 -/
theorem Shim.Inv.lastWatchRev_le {s : Shim} {a : PollLabel} (h : s.Inv cfg recs)
    (hcur : s.poll.lastWatchRev ≤ s.store.db.getLatestRev cfg)
    (he : Poll.Effect cfg s.store.db s.poll a p') :
    p'.lastWatchRev ≤ s.store.db.getLatestRev cfg := by
  cases hor : s.origin with
  | none =>
    rw [h.fresh hor] at he
    obtain ⟨-, rfl⟩ := he.of_init
    exact h.store.bounded.pos.le
  | some start =>
    have hp := h.polled start hor
    have hpos := hp.position_le
    cases he with
    | connect hpc => exact hcur
    | begin_ pollStart hpc =>
      have hle := hp.cursor_le.trans hpos
      simp only [Poll.cursor, hpc] at hle
      exact hle
    | read n lastRev events hpc hread => exact hcur
    | stay _ ha hpc => exact hcur
    | apply lastRev events hpc hne => exact hcur
    | hand events hpc => exact hcur
    | caughtUp lastRev hpc =>
      simp only [Poll.position, hpc] at hpos
      exact hpos
    | advance events hpc =>
      simp only [Poll.position, hpc] at hpos
      exact hpos
    | stop hpc => exact hcur

variable {s s' : PairSys}

/-- 書き込みが鍵の生死を履歴の通りに見るなら、履歴は作成と削除の連なりであり続ける。 -/
theorem PairSys.Inv.chained_store {a : StoreLabel} (h : s.Inv cfg recs)
    (hok : PairAssumed cfg s (.shim (.store a)))
    (he : Store.Effect cfg s.shim.store recs a st' recs') : Chained st'.committed := by
  cases he with
  | idle _ _ v hv hv63 calls hcalls => exact h.chained
  | wrote op lastWriteUUID uuid v record size hcan ht hw =>
    have hseen : isLive recs op.key = isLive s.shim.store.committed op.key :=
      (isLive_eq_getLast h.shim.store.tracks.holds op.key).trans hok
    have hfollows := hw.follows (r := (append cfg v uuid record size s.shim.store.db).1)
      hw.key_eq rfl rfl
    rw [← hw.key_eq] at hseen
    exact h.chained.concat (hfollows.congr hseen)
  | compacted i n v known endRev c c' db' begin_ hcan hi hrun hb hbatch heq => exact h.chained

theorem PairSys.inv_store {a : StoreLabel} (h : s.Inv cfg recs)
    (hok : PairAssumed cfg s (.shim (.store a)))
    (he : Store.Effect cfg s.shim.store recs a st' recs') :
    PairSys.Inv cfg { s with shim := { s.shim with store := st' } } recs' := by
  have hspare : SparesUnpolled s.shim (.store a) := by
    cases a with
    | compactBatch i n v known => exact hok
    | tick | write | startCompact => trivial
  have hcounts := h.counts.shim_store h.shim he
  have hlatest := he.latest_le h.shim.store
  refine ⟨Shim.inv_store h.shim hspare he, h.chained_store hok he, hcounts, h.cursor.trans hlatest,
    fun r hr => ?_, fun a ha => (h.answers a ha).trans hlatest⟩
  obtain ⟨hle, hex⟩ := h.reads r hr
  refine ⟨hle.trans hlatest, ?_⟩
  unfold CountEntry.ExactAt
  rw [he.atMost_eq h.shim.store hle]
  exact hex

theorem PairSys.inv_poll {a : PollLabel} (h : s.Inv cfg recs)
    (he : Poll.Effect cfg s.shim.store.db s.shim.poll a p') :
    PairSys.Inv cfg { s with shim :=
      { s.shim with
        poll := p'
        origin :=
          if a = .connect then
            s.shim.origin.or (some (currentRevision cfg s.shim.poll.lastWatchRev s.shim.store.db))
          else s.shim.origin } } recs := by
  have hcounts := h.counts.shim_poll h.shim h.chained he
  exact ⟨Shim.inv_poll h.shim he, h.chained, hcounts, h.shim.lastWatchRev_le h.cursor he, h.reads,
    h.answers⟩

/-- 入れた entry のほかは、前からの entry である。 -/
theorem CountTracker.mem_seed {t : CountTracker} {prefix_ k : Key} {count seedRev : Int}
    {e : CountEntry} (hm : (k, e) ∈ (t.seed prefix_ count seedRev).entries) :
    (k, e) ∈ t.entries ∨ t.get? prefix_ = none ∧ k = prefix_ ∧ e = ⟨count, seedRev⟩ := by
  unfold CountTracker.seed at hm
  split at hm
  · exact Or.inl hm
  · next hnone =>
    rcases OrdMap.mem_set.mp hm with hnew | ⟨hold, -⟩
    · cases hnew
      exact Or.inr ⟨hnone, rfl, rfl⟩
    · exact Or.inl hold

theorem PairSys.inv_seed {prefix_ : Key} {count seedRev : Int} (h : s.Inv cfg recs)
    (hactive : s.shim.poll ≠ .init) (hok : PairAssumed cfg s (.seed prefix_ count seedRev)) :
    PairSys.Inv cfg { s with
      shim := { s.shim with
        poll := { s.shim.poll with
          counts := s.shim.poll.counts.seed prefix_ count seedRev } } } recs := by
  have hor : s.shim.origin ≠ none := fun hor => hactive (h.shim.fresh hor)
  refine ⟨h.shim.set_counts hor _, h.chained, fun k e hm => ?_, h.cursor, h.reads, h.answers⟩
  rcases CountTracker.mem_seed hm with hold | ⟨hnone, rfl, rfl⟩
  · exact h.counts k e hold
  · exact hok hnone

theorem PairSys.inv_get {prefix_ : Key} {e : CountEntry} (h : s.Inv cfg recs)
    (hget : s.shim.poll.counts.get? prefix_ = some e) :
    PairSys.Inv cfg { s with reads := s.reads ++ [⟨prefix_, e, s.shim.poll.appliedTo⟩] } recs := by
  refine ⟨h.shim, h.chained, h.counts, h.cursor, fun r hr => ?_, h.answers⟩
  rcases List.mem_append.mp hr with hr | hr
  · exact h.reads r hr
  · obtain rfl := List.mem_singleton.mp hr
    obtain ⟨hseed, hex⟩ := h.counts prefix_ e (OrdMap.get?_eq_some_iff.mp hget)
    exact ⟨max_le hseed h.shim.appliedTo_le, hex⟩

theorem PairSys.inv_load {i : Nat} {r : TrackedRead} (h : s.Inv cfg recs) :
    PairSys.Inv cfg { s with
      reads := s.reads.eraseIdx i
      answers :=
        if r.entry.seedRev ≤ s.shim.poll.lastWatchRev then
          s.answers ++ [⟨r.prefix_, s.shim.poll.lastWatchRev, r.entry.count⟩]
        else s.answers } recs := by
  refine ⟨h.shim, h.chained, h.counts, h.cursor,
    fun r' hr' => h.reads r' (List.mem_of_mem_eraseIdx hr'), fun a ha => ?_⟩
  simp only at ha
  split at ha
  · rcases List.mem_append.mp ha with ha | ha
    · exact h.answers a ha
    · obtain rfl := List.mem_singleton.mp ha
      exact h.cursor
  · exact h.answers a ha

/-! ## 答えの正しさ -/

/-- 返した答えの正しさは、後からの commit によらない。 -/
theorem PairSys.answersExact_store {a : StoreLabel} (h : s.Inv cfg recs)
    (he : Store.Effect cfg s.shim.store recs a st' recs') :
    PairSys.AnswersExact { s with shim := { s.shim with store := st' } } ↔ s.AnswersExact := by
  refine forall₂_congr fun ans hans => ?_
  unfold CountAnswer.Exact
  rw [he.atMost_eq h.shim.store (h.answers ans hans)]

/-- cursor を読んで返す答えが正しいのは、entry の数が表す revision と cursor の間で作成と削除が釣り合う
とき、そのときに限る。 -/
theorem PairSys.answer_exact_iff {r : TrackedRead} (h : s.Inv cfg recs) (hr : r ∈ s.reads) :
    CountAnswer.Exact s.shim.store.committed
        ⟨r.prefix_, s.shim.poll.lastWatchRev, r.entry.count⟩ ↔
      Balanced s.shim.store.committed r.prefix_ (max r.entry.seedRev r.appliedTo)
        s.shim.poll.lastWatchRev := by
  have hex := (h.reads r hr).2
  unfold CountEntry.ExactAt at hex
  rw [balanced_iff h.shim.store.sorted_revision h.chained, CountAnswer.Exact, hex]
  exact Nat.cast_inj

theorem PairSys.answersExact_load {i : Nat} {r : TrackedRead} (h : s.Inv cfg recs)
    (hi : s.reads[i]? = some r) :
    PairSys.AnswersExact { s with
      reads := s.reads.eraseIdx i
      answers :=
        if r.entry.seedRev ≤ s.shim.poll.lastWatchRev then
          s.answers ++ [⟨r.prefix_, s.shim.poll.lastWatchRev, r.entry.count⟩]
        else s.answers } ↔ s.AnswersExact ∧ LoadsBalanced s (.load i) := by
  have hload : LoadsBalanced s (.load i) ↔ (r.entry.seedRev ≤ s.shim.poll.lastWatchRev →
      CountAnswer.Exact s.shim.store.committed
        ⟨r.prefix_, s.shim.poll.lastWatchRev, r.entry.count⟩) := by
    rw [PairSys.answer_exact_iff h (List.mem_of_getElem? hi)]
    simp [LoadsBalanced, hi]
  rw [hload]
  unfold PairSys.AnswersExact
  split
  · next hseed =>
    simp only [List.forall_mem_append, List.forall_mem_singleton]
    exact and_congr_right fun _ => ⟨fun hex _ => hex, fun hex => hex hseed⟩
  · next hseed => exact (and_iff_left fun hle => absurd hle hseed).symm

/-- 一手の後。 -/
theorem PairSys.step_spec {a : PairLabel} (h : s.Inv cfg recs) (hok : PairAssumed cfg s a)
    (hs : s.step cfg a = some s') :
    (∃ recs', s'.Inv cfg recs') ∧ (s'.AnswersExact ↔ s.AnswersExact ∧ LoadsBalanced s a) := by
  cases a with
  | shim a =>
    obtain ⟨t, ht, rfl⟩ := Option.map_eq_some_iff.mp hs
    cases a with
    | store a =>
      obtain ⟨st, hst, rfl⟩ := Option.map_eq_some_iff.mp ht
      obtain ⟨recs', he⟩ := Store.step_effect h.shim.store hst
      exact ⟨⟨recs', PairSys.inv_store h hok he⟩,
        (PairSys.answersExact_store h he).trans (and_iff_left trivial).symm⟩
    | poll a =>
      obtain ⟨p', hp', rfl⟩ := Option.map_eq_some_iff.mp ht
      exact ⟨⟨recs, PairSys.inv_poll h (Poll.step_effect hp')⟩, (and_iff_left trivial).symm⟩
  | seed prefix_ count seedRev =>
    simp only [PairSys.step] at hs
    split at hs
    · cases hs
    · next hactive =>
      cases hs
      exact ⟨⟨recs, PairSys.inv_seed h hactive hok⟩, (and_iff_left trivial).symm⟩
  | get prefix_ =>
    simp only [PairSys.step] at hs
    split at hs
    · next e hget =>
      cases hs
      exact ⟨⟨recs, PairSys.inv_get h hget⟩, (and_iff_left trivial).symm⟩
    · cases hs
  | load i =>
    simp only [PairSys.step] at hs
    split at hs
    · next r hi =>
      cases hs
      exact ⟨⟨recs, PairSys.inv_load h⟩, PairSys.answersExact_load h hi⟩
    · cases hs

/-- 仮定を満たす run で、tracker から返った答えがすべて正しいのは、cursor を読む手がどれも釣り合っている
とき、そのときに限る。 -/
theorem count_pairs_exact_iff (cfg : Config) {as : List PairLabel} {s : PairSys}
    (hrun : runSteps (PairSys.step cfg) .init as = some s)
    (hok : StepsMeet (PairSys.step cfg) (PairAssumed cfg) .init as) :
    s.AnswersExact ↔ StepsMeet (PairSys.step cfg) LoadsBalanced .init as := by
  have hinit : PairSys.init.AnswersExact := fun a ha => absurd ha List.not_mem_nil
  rw [run_iff_stepsMeet (PairAssumed cfg) (P := fun s => ∃ recs, s.Inv cfg recs)
    (Q := PairSys.AnswersExact) ?_ ⟨[], PairSys.init_inv cfg⟩ hok hrun]
  · exact and_iff_right hinit
  · rintro s a s' ⟨recs, h⟩ hok hs
    exact PairSys.step_spec h hok hs

/-- entry を入れてから鍵を一つ作る。 -/
def seededRun : List PairLabel :=
  [.shim (.poll .connect), .shim (.poll .begin_), .seed [47] 0 1,
    .shim (.store (.write (.create [47, 97] [1] 0) 0 1 2)), .shim (.poll (.read 5))]

/-- batch を進め終えてから答える run。 -/
def settledPairRun : List PairLabel :=
  seededRun ++ [.shim (.poll .apply), .shim (.poll .hand), .shim (.poll .advance), .get [47], .load 0]

theorem count_pairs_exact_of_settled :
    ∃ s, runSteps (PairSys.step .default) .init settledPairRun = some s ∧
      s.answers = [⟨[47], 2, 1⟩] ∧ s.AnswersExact := by
  have h : (runSteps (PairSys.step .default) .init settledPairRun).any (fun s =>
      decide (s.answers = [⟨[47], 2, 1⟩])) = true := by decide +kernel
  obtain ⟨s, hs, h⟩ := exists_of_any_decide h
  exact ⟨s, hs, h,
    (count_pairs_exact_iff .default hs (by decide +kernel)).mpr (by decide +kernel)⟩

/-- 反映の後、前進の前に答える run。 -/
def aheadPairRun : List PairLabel := seededRun ++ [.shim (.poll .apply), .get [47], .load 0]

/-- entry を反映の前に、cursor を前進の後に読む run。 -/
def behindPairRun : List PairLabel :=
  seededRun ++ [.get [47], .shim (.poll .apply), .shim (.poll .hand), .shim (.poll .advance), .load 0]

/-- 鍵がまだない revision 1 に数 1 が付き、鍵がある revision 2 に数 0 が付く。 -/
theorem torn_count_pairs :
    (∃ s, runSteps (PairSys.step .default) .init aheadPairRun = some s ∧
      StepsMeet (PairSys.step .default) (PairAssumed .default) .init aheadPairRun ∧
      s.answers = [⟨[47], 1, 1⟩] ∧
      (liveKeys [47] (atMost RevRecord.revision s.shim.store.committed 1)).card = 0) ∧
    ∃ s, runSteps (PairSys.step .default) .init behindPairRun = some s ∧
      StepsMeet (PairSys.step .default) (PairAssumed .default) .init behindPairRun ∧
      s.answers = [⟨[47], 2, 0⟩] ∧
      (liveKeys [47] (atMost RevRecord.revision s.shim.store.committed 2)).card = 1 := by
  have hahead : (runSteps (PairSys.step .default) .init aheadPairRun).any (fun s => decide
      (s.answers = [⟨[47], 1, 1⟩] ∧
        (liveKeys [47] (atMost RevRecord.revision s.shim.store.committed 1)).card = 0)) = true := by
    decide +kernel
  have hbehind : (runSteps (PairSys.step .default) .init behindPairRun).any (fun s => decide
      (s.answers = [⟨[47], 2, 0⟩] ∧
        (liveKeys [47] (atMost RevRecord.revision s.shim.store.committed 2)).card = 1)) = true := by
    decide +kernel
  obtain ⟨s, hs, h⟩ := exists_of_any_decide hahead
  obtain ⟨t, ht, h'⟩ := exists_of_any_decide hbehind
  exact ⟨⟨s, hs, by decide +kernel, h⟩, t, ht, by decide +kernel, h'⟩

end KubeFdb
