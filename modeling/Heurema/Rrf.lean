import Heurema.Data.Ieee
import Heurema.Data.Ranking
import Heurema.Data.TreeMap
import Heurema.Error
import Mathlib.Data.List.Permutation

/-! # Reciprocal-rank fusion

A fusion adds up, for each id, the reciprocals of its first ranks. The `f64`
operations are a parameter: each returns its exact value rounded, and the public
score is the sum narrowed. All values are positive and far below the greatest
finite `f64`, where `total_cmp` is the order of the values. -/

namespace Heurema

/-- How the operations of a fusion round, and what its public scores are. -/
structure FusionArith (S : Type) where
  round : ℚ → ℚ
  /-- `as f32`. -/
  narrow : ℚ → S

namespace FusionArith

/-- Nothing is rounded. -/
def exact : FusionArith ℚ := ⟨id, id⟩

/-- What the code computes with. -/
def binary64 : FusionArith F32 := ⟨BinaryFormat.binary64.round, F32.ofRat⟩

/-- A rounding to some grid of numbers with 0 and 1 on it. -/
structure Lawful {S : Type} (arith : FusionArith S) : Prop where
  mono : Monotone arith.round
  idem : ∀ x, arith.round (arith.round x) = arith.round x
  zero : arith.round 0 = 0
  one : arith.round 1 = 1

theorem binary64_lawful : binary64.Lawful :=
  ⟨BinaryFormat.round_mono, BinaryFormat.round_round, BinaryFormat.round_zero,
    BinaryFormat.round_one⟩

end FusionArith

section Fusion

variable {Id S : Type} [LinearOrder Id] (arith : FusionArith S) (kConstant : ℚ)

/-- What the hit at an offset of a ranking contributes. -/
def reciprocal (rank : Nat) : ℚ :=
  let oneBasedRank := arith.round (arith.round rank + 1)
  arith.round (1 / arith.round (kConstant + oneBasedRank))

/-- Adds one hit to the scores, unless its ranking listed the id before. -/
def fuseHit (state : BTreeSet Id × BTreeMap Id ℚ) (hit : (Id × F32) × Nat) :
    BTreeSet Id × BTreeMap Id ℚ :=
  let id := hit.1.1
  if id ∈ state.1 then state
  else (state.1.insert id, state.2.alter id fun score =>
    some (arith.round (score.getD 0 + reciprocal arith kConstant hit.2)))

def fuseRanking (scores : BTreeMap Id ℚ) (ranking : List (Id × F32)) : BTreeMap Id ℚ :=
  (ranking.zipIdx.foldl (fuseHit arith kConstant) (∅, scores)).2

/-- The scores of all rankings. -/
def accumulate (rankings : List (List (Id × F32))) : BTreeMap Id ℚ :=
  rankings.foldl (fuseRanking arith kConstant) ∅

def fuse (rankings : List (List (Id × F32))) : List (Id × S) :=
  (ranked (accumulate arith kConstant rankings).toList).map fun entry =>
    (entry.1, arith.narrow entry.2)

end Fusion

def rrf {Id S : Type} [LinearOrder Id] (arith : FusionArith S) (rankings : List (List (Id × F32)))
    (kConstant : F32) : Except HeuremaError (List (Id × S)) :=
  if kConstant.isFinite ∧ 0 < kConstant.toRat then .ok (fuse arith kConstant.toRat rankings)
  else .error (.invalidKConstant kConstant)

def DEFAULT_RRF_K_CONSTANT : F32 := ⟨0x42700000#32⟩

def rrfWithDefault {Id S : Type} [LinearOrder Id] (arith : FusionArith S)
    (rankings : List (List (Id × F32))) : List (Id × S) :=
  fuse arith DEFAULT_RRF_K_CONSTANT.toRat rankings

/-- The default passes the check that `rrf` makes. -/
theorem rrf_default {Id S : Type} [LinearOrder Id] (arith : FusionArith S)
    (rankings : List (List (Id × F32))) :
    rrf arith rankings DEFAULT_RRF_K_CONSTANT = .ok (rrfWithDefault arith rankings) := by
  have hvalid : DEFAULT_RRF_K_CONSTANT.isFinite ∧ 0 < DEFAULT_RRF_K_CONSTANT.toRat := by
    decide +kernel
  rw [rrf, if_pos hvalid, rrfWithDefault]

/-! ## What is accumulated -/

section Accumulated

variable {Id S : Type} [LinearOrder Id] (arith : FusionArith S) (kConstant : ℚ)

/-- The offset of the first hit of an id. -/
def firstRank (id : Id) (ranking : List (Id × F32)) : Option Nat :=
  ranking.findIdx? fun hit => hit.1 = id

/-- What each ranking that holds an id contributes to it. -/
def contributions (id : Id) (rankings : List (List (Id × F32))) : List ℚ :=
  rankings.filterMap fun ranking => (firstRank id ranking).map (reciprocal arith kConstant)

/-- Adds contributions up from the left. -/
def addUp (start : ℚ) (terms : List ℚ) : ℚ := terms.foldl (fun sum term => arith.round (sum + term)) start

/-- The score that an id accumulates. -/
def fusedSum (id : Id) (rankings : List (List (Id × F32))) : ℚ :=
  addUp arith 0 (contributions arith kConstant id rankings)

/-- Some ranking holds the id. -/
def Listed (id : Id) (rankings : List (List (Id × F32))) : Prop :=
  ∃ ranking ∈ rankings, id ∈ ranking.map Prod.fst

variable {arith kConstant} {id : Id} {ranking : List (Id × F32)} {rankings : List (List (Id × F32))}

theorem firstRank_isSome : (firstRank id ranking).isSome ↔ id ∈ ranking.map Prod.fst := by
  rw [firstRank, List.findIdx?_isSome]
  simp

theorem contributions_cons : contributions arith kConstant id (ranking :: rankings) =
    ((firstRank id ranking).map (reciprocal arith kConstant)).toList ++
      contributions arith kConstant id rankings := by
  rw [contributions, List.filterMap_cons]
  cases firstRank id ranking <;> rfl

theorem firstRank_cons (id : Id) (hit : Id × F32) (hits : List (Id × F32)) :
    firstRank id (hit :: hits) =
      if hit.1 = id then some 0 else (firstRank id hits).map (· + 1) := by
  rw [firstRank, List.findIdx?_cons]
  by_cases hid : hit.1 = id <;> simp [hid, firstRank]

/-- The score of an id after a ranking that lists it at some rank, or does not. -/
def addHit (arith : FusionArith S) (kConstant : ℚ) (score : Option ℚ) (rank : Option Nat) :
    Option ℚ :=
  match rank with
  | none => score
  | some rank => some (arith.round (score.getD 0 + reciprocal arith kConstant rank))

/-- The loop over the rest of a ranking, from offset `start` on. -/
theorem foldl_fuseHit (hits : List (Id × F32)) (start : Nat) (seen : BTreeSet Id)
    (scores : BTreeMap Id ℚ) (id : Id) :
    ((hits.zipIdx start).foldl (fuseHit arith kConstant) (seen, scores)).2[id]? =
      if id ∈ seen then scores[id]?
      else addHit arith kConstant scores[id]? ((firstRank id hits).map (· + start)) := by
  induction hits generalizing start seen scores with
  | nil => simp [firstRank, addHit]
  | cons hit hits ih =>
    rw [List.zipIdx_cons, List.foldl_cons]
    by_cases hseen : hit.1 ∈ seen
    · have hstep : fuseHit arith kConstant (seen, scores) (hit, start) = (seen, scores) := by
        simp [fuseHit, hseen]
      rw [hstep, ih]
      by_cases hid : id ∈ seen
      · rw [if_pos hid, if_pos hid]
      · -- The position that the repeated hit takes is passed over.
        have hne : hit.1 ≠ id := by
          rintro rfl
          exact hid hseen
        rw [if_neg hid, if_neg hid, firstRank_cons, if_neg hne, Option.map_map]
        congr 2
        funext rank
        show rank + (start + 1) = rank + 1 + start
        omega
    · have hstep : fuseHit arith kConstant (seen, scores) (hit, start) =
          (seen.insert hit.1, scores.alter hit.1 fun score =>
            some (arith.round (score.getD 0 + reciprocal arith kConstant start))) := by
        simp [fuseHit, hseen]
      rw [hstep, ih, BTreeMap.getElem?_alter_ite, firstRank_cons]
      by_cases hid : hit.1 = id
      · subst hid
        simp [hseen, addHit]
      · have hmem : id ∈ seen.insert hit.1 ↔ id ∈ seen := by
          rw [BTreeSet.mem_insert_iff]
          simp [Ne.symm hid]
        rw [if_neg hid, if_neg hid, Option.map_map]
        simp only [hmem]
        congr 3
        funext rank
        show rank + (start + 1) = rank + 1 + start
        omega

theorem fuseRanking_lookup (scores : BTreeMap Id ℚ) (ranking : List (Id × F32)) (id : Id) :
    (fuseRanking arith kConstant scores ranking)[id]? =
      addHit arith kConstant scores[id]? (firstRank id ranking) := by
  rw [fuseRanking, foldl_fuseHit, if_neg (by simp)]
  simp

theorem foldl_fuseRanking (rankings : List (List (Id × F32))) (scores : BTreeMap Id ℚ) (id : Id) :
    (rankings.foldl (fuseRanking arith kConstant) scores)[id]? =
      if contributions arith kConstant id rankings = [] then scores[id]?
      else some (addUp arith (scores[id]?.getD 0) (contributions arith kConstant id rankings)) := by
  induction rankings generalizing scores with
  | nil => simp [contributions]
  | cons ranking rankings ih =>
    rw [List.foldl_cons, ih, fuseRanking_lookup, contributions_cons]
    cases firstRank id ranking with
    | none => rfl
    | some rank =>
      simp only [addHit, Option.map_some, Option.toList_some, List.cons_append, List.nil_append,
        Option.getD_some, reduceCtorEq, if_false, addUp, List.foldl_cons]
      split
      · next hrest => rw [hrest]; rfl
      · rfl

theorem contributions_ne_nil : contributions arith kConstant id rankings ≠ [] ↔ Listed id rankings := by
  rw [ne_eq, contributions, List.filterMap_eq_nil_iff]
  simp [Listed, ← firstRank_isSome, Option.isSome_iff_ne_none]

/-- The accumulated score of an id is the sum of its contributions, in the order
of the rankings. -/
theorem mem_accumulate {score : ℚ} : (accumulate arith kConstant rankings)[id]? = some score ↔
    Listed id rankings ∧ score = fusedSum arith kConstant id rankings := by
  have hlisted : Listed id rankings ↔ contributions arith kConstant id rankings ≠ [] :=
    contributions_ne_nil.symm
  rw [accumulate, foldl_fuseRanking, hlisted]
  by_cases hnone : contributions arith kConstant id rankings = []
  · simp [hnone]
  · simp [hnone, fusedSum, eq_comm]

/-- What is ranked before the scores are narrowed. -/
theorem mem_ranked {score : ℚ} :
    (id, score) ∈ ranked (accumulate arith kConstant rankings).toList ↔
      Listed id rankings ∧ score = fusedSum arith kConstant id rankings := by
  rw [(ranked_perm _).mem_iff, BTreeMap.mem_toList, mem_accumulate]

theorem fuse_ids : (fuse arith kConstant rankings).map Prod.fst =
    (ranked (accumulate arith kConstant rankings).toList).map Prod.fst := by
  rw [fuse, List.map_map]
  rfl

theorem fuse_nodup : ((fuse arith kConstant rankings).map Prod.fst).Nodup := by
  rw [fuse_ids, ((ranked_perm _).map Prod.fst).nodup_iff]
  exact BTreeMap.toList_keys_nodup _

theorem mem_fuse_ids : id ∈ (fuse arith kConstant rankings).map Prod.fst ↔ Listed id rankings := by
  rw [fuse_ids]
  simp [mem_ranked]

theorem mem_fuse {score : S} : (id, score) ∈ fuse arith kConstant rankings ↔
    Listed id rankings ∧ score = arith.narrow (fusedSum arith kConstant id rankings) := by
  rw [fuse, List.mem_map]
  constructor
  · rintro ⟨⟨id', sum⟩, hmem, heq⟩
    cases heq
    obtain ⟨hlisted, rfl⟩ := mem_ranked.mp hmem
    exact ⟨hlisted, rfl⟩
  · rintro ⟨hlisted, rfl⟩
    exact ⟨(id, fusedSum arith kConstant id rankings), mem_ranked.mpr ⟨hlisted, rfl⟩, rfl⟩

/-- The entry of an id before its score is narrowed. -/
def fusedEntry (arith : FusionArith S) (kConstant : ℚ) (rankings : List (List (Id × F32))) (id : Id) :
    Id × ℚ :=
  (id, fusedSum arith kConstant id rankings)

theorem ranked_eq_map : ranked (accumulate arith kConstant rankings).toList =
    ((fuse arith kConstant rankings).map Prod.fst).map (fusedEntry arith kConstant rankings) := by
  rw [fuse_ids, List.map_map]
  refine (List.map_id _).symm.trans (List.map_congr_left fun entry hentry => ?_)
  exact Prod.ext rfl (mem_ranked.mp hentry).2

theorem fuse_eq_map : fuse arith kConstant rankings = ((fuse arith kConstant rankings).map Prod.fst).map
    fun id => (id, arith.narrow (fusedSum arith kConstant id rankings)) := by
  refine (List.map_id _).symm.trans (Eq.trans ?_ List.map_map.symm)
  refine List.map_congr_left fun entry hentry => ?_
  exact Prod.ext rfl (mem_fuse.mp hentry).2

/-- What comes first has the greater sum, or an equal one and the smaller id. -/
theorem outranks_of_precedes {a b : Id}
    (h : [a, b].Sublist ((fuse arith kConstant rankings).map Prod.fst)) :
    outranks (fusedEntry arith kConstant rankings a) (fusedEntry arith kConstant rankings b) := by
  have hsub : [fusedEntry arith kConstant rankings a, fusedEntry arith kConstant rankings b].Sublist
      (ranked (accumulate arith kConstant rankings).toList) := by
    rw [ranked_eq_map]
    exact h.map (fusedEntry arith kConstant rankings)
  exact outranks_of_sublist hsub

/-- The ids of each ranking decide the fusion. -/
theorem fuse_congr {rankings' : List (List (Id × F32))}
    (h : rankings'.map (·.map Prod.fst) = rankings.map (·.map Prod.fst)) :
    fuse arith kConstant rankings' = fuse arith kConstant rankings := by
  have hcontributions (id : Id) (rankings : List (List (Id × F32))) :
      contributions arith kConstant id rankings = (rankings.map (·.map Prod.fst)).filterMap
        fun ids => (ids.findIdx? (· = id)).map (reciprocal arith kConstant) := by
    rw [contributions, List.filterMap_map]
    congr 1
    funext ranking
    simp [firstRank, List.findIdx?_map, Function.comp_def]
  have hmap : accumulate arith kConstant rankings' = accumulate arith kConstant rankings := by
    apply BTreeMap.ext_lookup
    intro id
    rw [accumulate, accumulate, foldl_fuseRanking, foldl_fuseRanking, hcontributions, hcontributions, h]
  rw [fuse, hmap, fuse]

end Accumulated

/-! ## In exact arithmetic -/

section Exact

variable {Id : Type} [LinearOrder Id]

theorem addUp_exact (start : ℚ) (terms : List ℚ) :
    addUp FusionArith.exact start terms = start + terms.sum := by
  induction terms generalizing start with
  | nil => simp [addUp]
  | cons term terms ih =>
    have hrest := ih (start + term)
    rw [List.sum_cons, ← add_assoc]
    exact hrest

/-- The reference definition of the fusion: every listed id once, with the sum
of the reciprocals of its first ranks, best first; the scores of the hits do not
matter. -/
theorem fuse_exact (rankings : List (List (Id × F32))) (kConstant : ℚ) :
    ((fuse FusionArith.exact kConstant rankings).map Prod.fst).Nodup ∧
    (∀ id, id ∈ (fuse FusionArith.exact kConstant rankings).map Prod.fst ↔
      ∃ ranking ∈ rankings, id ∈ ranking.map Prod.fst) ∧
    (∀ id score, (id, score) ∈ fuse FusionArith.exact kConstant rankings →
      score = (rankings.filterMap fun ranking =>
        (ranking.findIdx? fun hit => hit.1 = id).map fun offset =>
          1 / (kConstant + (offset + 1 : ℕ))).sum) ∧
    (fuse FusionArith.exact kConstant rankings).Pairwise outranks ∧
    ∀ rankings' : List (List (Id × F32)),
      rankings'.map (·.map Prod.fst) = rankings.map (·.map Prod.fst) →
      fuse FusionArith.exact kConstant rankings' = fuse FusionArith.exact kConstant rankings := by
  refine ⟨fuse_nodup, fun id => mem_fuse_ids, fun id score hmem => ?_, ?_, fun rankings' => fuse_congr⟩
  · obtain ⟨-, hscore⟩ := mem_fuse.mp hmem
    have hreciprocal : reciprocal FusionArith.exact kConstant =
        fun offset => 1 / (kConstant + (offset + 1 : ℕ)) := by
      funext offset
      push_cast
      rfl
    rw [hscore]
    show fusedSum _ _ _ _ = _
    rw [fusedSum, addUp_exact, zero_add, contributions, hreciprocal]
    rfl
  · have hid : fuse FusionArith.exact kConstant rankings =
        ranked (accumulate FusionArith.exact kConstant rankings).toList := List.map_id _
    rw [hid]
    exact ranked_pairwise _

end Exact

/-! ## Dominance -/

section Dominance

variable {Id S : Type} [LinearOrder Id] {arith : FusionArith S} {kConstant : ℚ}

theorem round_nonneg (h : arith.Lawful) {x : ℚ} (hx : 0 ≤ x) : 0 ≤ arith.round x := by
  rw [← h.zero]
  exact h.mono hx

/-- The denominators are at least 1, whatever is lost in rounding them. -/
theorem one_le_denominator (h : arith.Lawful) (hk : 0 < kConstant) (rank : Nat) :
    1 ≤ arith.round (kConstant + arith.round (arith.round rank + 1)) := by
  have hrank : 0 ≤ arith.round rank := round_nonneg h (by positivity)
  have hone : 1 ≤ arith.round (arith.round rank + 1) := by
    calc (1 : ℚ) = arith.round 1 := h.one.symm
      _ ≤ arith.round (arith.round rank + 1) := h.mono (by linarith)
  calc (1 : ℚ) = arith.round 1 := h.one.symm
    _ ≤ _ := h.mono (by linarith)

theorem reciprocal_nonneg (h : arith.Lawful) (hk : 0 < kConstant) (rank : Nat) :
    0 ≤ reciprocal arith kConstant rank := by
  have := one_le_denominator h hk rank
  exact round_nonneg h (by positivity)

theorem reciprocal_antitone (h : arith.Lawful) (hk : 0 < kConstant) {better rank : Nat}
    (hle : better ≤ rank) :
    reciprocal arith kConstant rank ≤ reciprocal arith kConstant better := by
  have hone := one_le_denominator h hk better
  have hround : arith.round (better : ℚ) ≤ arith.round (rank : ℚ) := h.mono (by exact_mod_cast hle)
  have hdenominator : arith.round (kConstant + arith.round (arith.round better + 1)) ≤
      arith.round (kConstant + arith.round (arith.round rank + 1)) := by
    refine h.mono ?_
    have : arith.round (arith.round better + 1) ≤ arith.round (arith.round rank + 1) :=
      h.mono (by linarith)
    linarith
  refine h.mono (one_div_le_one_div_of_le ?_ hdenominator)
  linarith

/-- `a` is listed no later than `b` wherever `b` is listed. -/
def Dominates (a b : Id) (rankings : List (List (Id × F32))) : Prop :=
  ∀ ranking ∈ rankings, ∀ rank, firstRank b ranking = some rank →
    ∃ better ≤ rank, firstRank a ranking = some better

/-- Sums that start in order stay in order; the lower one is a rounded number,
so a contribution to the other alone does not take it below. -/
theorem addUp_dominates (h : arith.Lawful) (hk : 0 < kConstant) {a b : Id}
    {rankings : List (List (Id × F32))} (hdom : Dominates a b rankings) {low high : ℚ}
    (hle : low ≤ high) (hrounded : arith.round low = low) :
    addUp arith low (contributions arith kConstant b rankings) ≤
      addUp arith high (contributions arith kConstant a rankings) := by
  induction rankings generalizing low high with
  | nil => exact hle
  | cons ranking rankings ih =>
    obtain ⟨hhead, hrest⟩ := List.forall_mem_cons.mp hdom
    rw [contributions_cons, contributions_cons]
    cases hb : firstRank b ranking with
    | none =>
      cases ha : firstRank a ranking with
      | none => exact ih hrest hle hrounded
      | some better =>
        have hnonneg := reciprocal_nonneg h hk better
        refine ih hrest ?_ hrounded
        calc low = arith.round low := hrounded.symm
          _ ≤ arith.round (high + reciprocal arith kConstant better) := h.mono (by linarith)
    | some rank =>
      obtain ⟨better, hbetter, ha⟩ := hhead rank hb
      have hreciprocal := reciprocal_antitone h hk hbetter
      rw [ha]
      refine ih hrest (h.mono ?_) (h.idem _)
      linarith

/-- A dominated id comes first only on an equal sum, as the smaller id. -/
theorem fuse_dominance (h : arith.Lawful) (hk : 0 < kConstant) {a b : Id}
    {rankings : List (List (Id × F32))} (hdom : Dominates a b rankings)
    (hfirst : [b, a].Sublist ((fuse arith kConstant rankings).map Prod.fst)) :
    fusedSum arith kConstant b rankings = fusedSum arith kConstant a rankings ∧ b < a := by
  have hle : fusedSum arith kConstant b rankings ≤ fusedSum arith kConstant a rankings :=
    addUp_dominates h hk hdom (le_refl 0) h.zero
  have hne : b ≠ a := by
    have := fuse_nodup.sublist hfirst
    simpa using this
  rcases outranks_of_precedes hfirst with hlt | ⟨hsum, hid⟩
  · exact absurd hle hlt.not_ge
  · exact ⟨hsum.symm, lt_of_le_of_ne hid hne⟩

/-- Beside a large constant the first two ranks are one number. -/
theorem fuse_dominance_absorbed :
    let rankings : List (List (Nat × F32)) := [[(1, ⟨0x3f800000#32⟩), (0, ⟨0x3f000000#32⟩)]]
    fusedSum FusionArith.binary64 (2 ^ 100) 0 rankings =
      fusedSum FusionArith.binary64 (2 ^ 100) 1 rankings ∧ 0 < 1 := by
  intro rankings
  refine fuse_dominance FusionArith.binary64_lawful (by norm_num) ?_ (by decide +kernel)
  intro ranking hranking rank hrank
  obtain rfl : ranking = [(1, ⟨0x3f800000#32⟩), (0, ⟨0x3f000000#32⟩)] := by
    simpa [rankings] using hranking
  exact ⟨0, Nat.zero_le rank, by decide⟩

end Dominance

/-! ## Arrangements of the rankings -/

section Arrangement

variable {Id S : Type} [LinearOrder Id] {arith : FusionArith S} {kConstant : ℚ}
  {rankings rankings' : List (List (Id × F32))} {a b id : Id}

theorem precedes_iff (ha : Listed a rankings) (hb : Listed b rankings) (hlt : a < b) :
    [a, b].Sublist ((fuse arith kConstant rankings).map Prod.fst) ↔
      fusedSum arith kConstant b rankings ≤ fusedSum arith kConstant a rankings := by
  constructor
  · intro h
    exact (outranks_of_lt hlt).mp (outranks_of_precedes h)
  · intro hle
    refine (sublist_or_sublist (mem_fuse_ids.mpr ha) (mem_fuse_ids.mpr hb) hlt.ne).resolve_right ?_
    intro h
    exact (outranks_of_gt hlt).mp (outranks_of_precedes h) hle

omit [LinearOrder Id] in
theorem Listed.perm (h : rankings'.Perm rankings) : Listed id rankings' ↔ Listed id rankings := by
  simp only [Listed, h.mem_iff]

theorem contributions_perm (h : rankings'.Perm rankings) :
    (contributions arith kConstant id rankings').Perm (contributions arith kConstant id rankings) :=
  h.filterMap _

/-- Fusions with the same sums up to order and narrowing are the same. -/
theorem fuse_arranged (h : rankings'.Perm rankings)
    (hnarrow : ∀ id, arith.narrow (fusedSum arith kConstant id rankings') =
      arith.narrow (fusedSum arith kConstant id rankings))
    (horder : ∀ {a b : Id}, Listed a rankings → Listed b rankings → a < b →
      (fusedSum arith kConstant b rankings' ≤ fusedSum arith kConstant a rankings' ↔
        fusedSum arith kConstant b rankings ≤ fusedSum arith kConstant a rankings)) :
    fuse arith kConstant rankings' = fuse arith kConstant rankings := by
  have hmem {id : Id} : id ∈ (fuse arith kConstant rankings').map Prod.fst ↔
      id ∈ (fuse arith kConstant rankings).map Prod.fst := by
    rw [mem_fuse_ids, mem_fuse_ids, Listed.perm h]
  have hids : (fuse arith kConstant rankings').map Prod.fst =
      (fuse arith kConstant rankings).map Prod.fst := by
    have hperm := (List.perm_ext_iff_of_nodup fuse_nodup fuse_nodup).mpr fun _ => hmem
    -- Both lists are in the order that the sums of the one arrangement give.
    have hsorted' : ((fuse arith kConstant rankings').map Prod.fst).Pairwise fun a b =>
        outranks (fusedEntry arith kConstant rankings a) (fusedEntry arith kConstant rankings b) := by
      refine List.pairwise_iff_forall_sublist.mpr fun {a b} hab => ?_
      have ha : Listed a rankings := mem_fuse_ids.mp (hmem.mp (hab.subset (by simp)))
      have hb : Listed b rankings := mem_fuse_ids.mp (hmem.mp (hab.subset (by simp)))
      have hbefore := outranks_of_precedes hab
      rcases lt_trichotomy a b with hlt | rfl | hgt
      · exact (outranks_of_lt hlt).mpr ((horder ha hb hlt).mp ((outranks_of_lt hlt).mp hbefore))
      · exact absurd (fuse_nodup.sublist hab) (by simp)
      · refine (outranks_of_gt hgt).mpr fun hle => ?_
        exact (outranks_of_gt hgt).mp hbefore ((horder hb ha hgt).mpr hle)
    have hsorted : ((fuse arith kConstant rankings).map Prod.fst).Pairwise fun a b =>
        outranks (fusedEntry arith kConstant rankings a) (fusedEntry arith kConstant rankings b) :=
      List.pairwise_iff_forall_sublist.mpr fun hab => outranks_of_precedes hab
    refine hperm.eq_of_pairwise (fun a b _ _ hab hba => ?_) hsorted' hsorted
    exact congrArg Prod.fst (antisymm (r := outranks) hab hba)
  have hentries : fuse arith kConstant rankings' =
      ((fuse arith kConstant rankings').map Prod.fst).map
        fun id => (id, arith.narrow (fusedSum arith kConstant id rankings')) := fuse_eq_map
  rw [hids] at hentries
  simp only [hnarrow] at hentries
  exact hentries.trans fuse_eq_map.symm

/-- A fusion that the arrangement of its rankings does not affect, where ids
with the same contributions stand in their own order. -/
structure Arranged (arith : FusionArith S) (rankings : List (List (Id × F32))) (kConstant : F32) :
    Prop where
  permuted : ∀ rankings', rankings'.Perm rankings →
    rrf arith rankings' kConstant = rrf arith rankings kConstant
  tied : ∀ fused, rrf arith rankings kConstant = .ok fused → ∀ {a b : Id},
    Listed a rankings → Listed b rankings → a < b →
    (contributions arith kConstant.toRat a rankings).Perm
      (contributions arith kConstant.toRat b rankings) →
    [a, b].Sublist (fused.map Prod.fst)

/-- Adding the reciprocal ranks up in the order of another arrangement changes
neither a narrowed sum nor which of two sums is greater, and the same reciprocals
do not add up to more for the greater id. -/
structure Reorders (arith : FusionArith S) (rankings : List (List (Id × F32))) (kConstant : ℚ) :
    Prop where
  narrowed : ∀ rankings', rankings'.Perm rankings → ∀ id,
    arith.narrow (addUp arith 0 (contributions arith kConstant id rankings')) =
      arith.narrow (addUp arith 0 (contributions arith kConstant id rankings))
  ordered : ∀ rankings', rankings'.Perm rankings → ∀ {a b : Id},
    Listed a rankings → Listed b rankings → a < b →
    (addUp arith 0 (contributions arith kConstant b rankings') ≤
        addUp arith 0 (contributions arith kConstant a rankings') ↔
      addUp arith 0 (contributions arith kConstant b rankings) ≤
        addUp arith 0 (contributions arith kConstant a rankings))
  tied : ∀ {a b : Id}, Listed a rankings → Listed b rankings → a < b →
    (contributions arith kConstant a rankings).Perm (contributions arith kConstant b rankings) →
    addUp arith 0 (contributions arith kConstant b rankings) ≤
      addUp arith 0 (contributions arith kConstant a rankings)

theorem arranged_iff {kConstant : F32} (hk : kConstant.isFinite ∧ 0 < kConstant.toRat) :
    Arranged arith rankings kConstant ↔ Reorders arith rankings kConstant.toRat := by
  have hrrf (rankings : List (List (Id × F32))) :
      rrf arith rankings kConstant = .ok (fuse arith kConstant.toRat rankings) := if_pos hk
  constructor
  · intro h
    have hsame (rankings' : List (List (Id × F32))) (hperm : rankings'.Perm rankings) :
        fuse arith kConstant.toRat rankings' = fuse arith kConstant.toRat rankings := by
      have := h.permuted rankings' hperm
      rw [hrrf, hrrf] at this
      exact Except.ok.inj this
    refine ⟨fun rankings' hperm id => ?_, fun rankings' hperm {a b} ha hb hlt => ?_,
      fun {a b} ha hb hlt hsame => ?_⟩
    · by_cases hid : Listed id rankings
      · have hmem : (id, arith.narrow (fusedSum arith kConstant.toRat id rankings')) ∈
            fuse arith kConstant.toRat rankings' :=
          mem_fuse.mpr ⟨(Listed.perm hperm).mpr hid, rfl⟩
        rw [hsame rankings' hperm] at hmem
        exact (mem_fuse.mp hmem).2
      · have hnone {rankings : List (List (Id × F32))} (h : ¬ Listed id rankings) :
            contributions arith kConstant.toRat id rankings = [] := by
          by_contra hne
          exact h (contributions_ne_nil.mp hne)
        rw [hnone hid, hnone (mt (Listed.perm hperm).mp hid)]
    · have hbefore : [a, b].Sublist ((fuse arith kConstant.toRat rankings').map Prod.fst) ↔
          fusedSum arith kConstant.toRat b rankings' ≤ fusedSum arith kConstant.toRat a rankings' :=
        precedes_iff ((Listed.perm hperm).mpr ha) ((Listed.perm hperm).mpr hb) hlt
      rw [hsame rankings' hperm] at hbefore
      exact hbefore.symm.trans (precedes_iff ha hb hlt)
    · exact (precedes_iff ha hb hlt).mp (h.tied _ (hrrf rankings) ha hb hlt hsame)
  · intro h
    refine ⟨fun rankings' hperm => ?_, fun fused hfused {a b} ha hb hlt hsame => ?_⟩
    · rw [hrrf, hrrf, fuse_arranged hperm (h.narrowed rankings' hperm) (h.ordered rankings' hperm)]
    · rw [hrrf] at hfused
      cases hfused
      exact (precedes_iff ha hb hlt).mpr (h.tied ha hb hlt hsame)

/-- Two numbers of the format add up to the same either way. -/
theorem addUp_pair {terms terms' : List ℚ} (hperm : terms'.Perm terms)
    (hlength : terms.length ≤ 2) (hrounded : ∀ term ∈ terms, arith.round term = term) :
    addUp arith 0 terms' = addUp arith 0 terms := by
  match terms, hlength with
  | [], _ => rw [hperm.eq_nil]
  | [x], _ => rw [List.perm_singleton.mp hperm]
  | [x, y], _ =>
    have hx := hrounded x (by simp)
    have hy := hrounded y (by simp)
    rcases List.perm_pair.mp hperm with heq | heq
    · rw [heq]
    · rw [heq]
      simp only [addUp, List.foldl_cons, List.foldl_nil, zero_add, hx, hy]
      rw [add_comm]

/-- The ranks at which an id is listed, in the order of the rankings. -/
def ranks (id : Id) (rankings : List (List (Id × F32))) : List Nat :=
  rankings.filterMap (firstRank id)

/-- Two rankings at most list the id, or all that do list it at one rank. -/
def Steady (id : Id) (rankings : List (List (Id × F32))) : Prop :=
  (ranks id rankings).length ≤ 2 ∨ ∃ rank, ∀ other ∈ ranks id rankings, other = rank

theorem contributions_eq_map : contributions arith kConstant id rankings =
    (ranks id rankings).map (reciprocal arith kConstant) := by
  rw [contributions, ranks, List.map_filterMap]

/-- The reciprocals of a steady id add up to the same in every order. -/
theorem Steady.addUp_perm (hsteady : Steady id rankings) (h : arith.Lawful) {terms : List ℚ}
    (hperm : terms.Perm (contributions arith kConstant id rankings)) :
    addUp arith 0 terms = addUp arith 0 (contributions arith kConstant id rankings) := by
  rw [contributions_eq_map] at hperm ⊢
  rcases hsteady with hpair | hsame
  · refine addUp_pair hperm ((List.length_map _).trans_le hpair) fun term hterm => ?_
    obtain ⟨rank, -, rfl⟩ := List.mem_map.mp hterm
    exact h.idem _
  · obtain ⟨rank, hrank⟩ := hsame
    have hall : (ranks id rankings).map (reciprocal arith kConstant) =
        List.replicate (ranks id rankings).length (reciprocal arith kConstant rank) := by
      rw [List.eq_replicate_of_mem hrank, List.map_replicate, List.length_replicate]
    rw [hall] at hperm ⊢
    rw [List.perm_replicate.mp hperm]

/-- No sum depends on its order while every id is steady. -/
theorem reorders_of_steady (h : arith.Lawful) (hsteady : ∀ id, Steady id rankings) :
    Reorders arith rankings kConstant := by
  have hsum {id : Id} {rankings' : List (List (Id × F32))} (hperm : rankings'.Perm rankings) :
      addUp arith 0 (contributions arith kConstant id rankings') =
        addUp arith 0 (contributions arith kConstant id rankings) :=
    (hsteady id).addUp_perm h (contributions_perm hperm)
  refine ⟨fun rankings' hperm id => ?_, fun rankings' hperm {a b} _ _ _ => ?_,
    fun {a b} _ _ _ hsame => ?_⟩
  · rw [hsum hperm]
  · rw [hsum hperm, hsum hperm]
  · rw [(hsteady b).addUp_perm h hsame]

/-- In binary64 the arrangement does not matter while no id is in three rankings or more, at
ranks that are not all the same. -/
theorem rrf_arranged {kConstant : F32} (hk : kConstant.isFinite ∧ 0 < kConstant.toRat)
    {rankings : List (List (Id × F32))} (hsteady : ∀ id, Steady id rankings) :
    Arranged FusionArith.binary64 rankings kConstant :=
  (arranged_iff hk).mpr (reorders_of_steady FusionArith.binary64_lawful hsteady)

omit [LinearOrder Id] in
/-- The ranking of one source that holds the given ids. -/
def hits (ids : List Id) : List (Id × F32) := ids.map fun id => (id, ⟨0x3f800000#32⟩)

/-- Two ids, each once second and twice first. -/
def crossed : List (List (Nat × F32)) := [hits [1], hits [0], hits [0, 1], hits [1, 0]]

/-- Of two ids with the same three reciprocals, each fuses to the greater sum in
some arrangement of four rankings. -/
theorem crossed_arrangement :
    (rrfWithDefault FusionArith.binary64 crossed).map Prod.fst = [1, 0] ∧
    (rrfWithDefault FusionArith.binary64 [hits [1], hits [0], hits [1, 0], hits [0, 1]]).map
      Prod.fst = [0, 1] ∧
    (contributions FusionArith.binary64 DEFAULT_RRF_K_CONSTANT.toRat 0 crossed).Perm
      (contributions FusionArith.binary64 DEFAULT_RRF_K_CONSTANT.toRat 1 crossed) ∧
    ¬ Arranged FusionArith.binary64 crossed DEFAULT_RRF_K_CONSTANT := by
  have hfirst : (rrfWithDefault FusionArith.binary64 crossed).map Prod.fst = [1, 0] := by
    decide +kernel
  have hsecond : (rrfWithDefault FusionArith.binary64
      [hits [1], hits [0], hits [1, 0], hits [0, 1]]).map Prod.fst = [0, 1] := by
    decide +kernel
  refine ⟨hfirst, hsecond, by decide +kernel, fun h => ?_⟩
  have hperm : [hits [1], hits [0], hits [1, 0], hits [0, 1]].Perm crossed :=
    ((List.Perm.swap _ _ _).cons _).cons _
  have hsame := h.permuted _ hperm
  rw [rrf_default, rrf_default, Except.ok.injEq] at hsame
  rw [hsame, hfirst] at hsecond
  cases hsecond

/-- Fused in pairs, the same hits tie. -/
theorem rrf_arranged_pairs :
    Arranged FusionArith.binary64 [hits [0, 1], hits [1, 0]] DEFAULT_RRF_K_CONSTANT :=
  rrf_arranged (by decide +kernel) fun _ => .inl (List.length_filterMap_le _ _)

end Arrangement

end Heurema
