import Mathlib.Order.Bounds.Basic
import Mini2440.Library.Align
import Mini2440.Library.Run
import Mini2440.Memblock.Remove

/-!
# memblock as two sets of addresses

The operations on `memblock`: adding and removing memory, reserving and freeing, trimming the
memory to whole pages, and the search for an address. Over every sequence of them the arrays
stand for the sets that the corresponding unions, differences and trimmings give.

Trimming has two flaws. It does not book the sizes that it changes in `total_size`, and a region
that begins in the last page of the address space is rounded up to address zero. `Trims` and
`Books` are the conditions under which they do not show.
-/

namespace Mini2440.Memblock

open List Library

/-! ## Trimming -/

/-- What `memblock_trim_memory` leaves of a region, `none` if it is removed. -/
def trimRegion (align : Word) (r : Region) : Option Region :=
  let start := roundUp r.base align
  let stop := roundDown r.stop align
  if start = r.base ∧ stop = r.stop then some r
  else if start < stop then some ⟨start, stop - start⟩
  else none

/-- The loop of `memblock_trim_memory` at index `i`. -/
def trimLoop (align : Word) : Nat → Nat → Regions → Regions
  | 0, _, t => t
  | fuel + 1, i, t =>
    match t.regions[i]? with
    | none => t
    | some rgn =>
      match trimRegion align rgn with
      | some rgn' => trimLoop align fuel (i + 1) { t with regions := t.regions.set i rgn' }
      | none => trimLoop align fuel i (removeRegion t i)

/-- `memblock_trim_memory`. The turn after the last region is for the dummy that takes the place
of the last region if that one is removed. -/
def trimMemory (align : Word) (t : Regions) : Regions := trimLoop align (t.cnt + 1) 0 t

/-- The rounded ends are addresses: no region begins in the last page and is not aligned. -/
def Trims (align : Word) (t : Regions) : Prop :=
  (∃ k, align.toNat = 2 ^ k) ∧ ∀ r ∈ t.regions, r.base.toNat + (align.toNat - 1) < 2 ^ 32

def Books (align : Word) (t : Regions) : Prop :=
  ∀ r ∈ t.regions, trimRegion align r = some r ∨ trimRegion align r = none

variable {d align : Word} {max k n a : Nat} {l done rest : List Region} {r : Region} {t : Regions}
  {s : List Span} {ops : List Op} {S : Set Nat}

lemma trimRegion_dummy : trimRegion align .dummy = some .dummy := by
  have hup : roundUp Region.dummy.base align = Region.dummy.base := roundUp_zero align
  have hdown : roundDown Region.dummy.stop align = Region.dummy.stop := by
    simp [roundDown, Region.dummy, Region.stop]
  simp [trimRegion, hup, hdown]

lemma trimLoop_dummy (fuel : Nat) :
    trimLoop align fuel 0 (booked d max [.dummy]) = booked d max [.dummy] := by
  rcases fuel with _ | _ | fuel <;> simp [trimLoop, trimRegion_dummy, booked]

lemma set_booked {r' : Region} :
    { booked d max (done ++ r :: rest) with
        regions := (done ++ r :: rest).set done.length r' } =
      booked (d + r.size - r'.size) max (done ++ r' :: rest) := by
  have htotal : total (done ++ r :: rest) + d =
      total (done ++ r' :: rest) + (d + r.size - r'.size) := by
    simp only [total_append, total]
    grind
  have hset : (done ++ r :: rest).set done.length r' = done ++ r' :: rest := by simp
  rw [hset]
  exact congrArg (Regions.mk _ · max) htotal

lemma trimLoop_booked (d : Word) (fuel : Nat) (done : List Region)
    (hfuel : rest.length + 1 ≤ fuel) (hne : done ++ rest ≠ []) :
    ∃ d', trimLoop align fuel done.length (booked d max (done ++ rest)) =
        booked d' max (orDummy (done ++ rest.filterMap (trimRegion align))) ∧
      ((∀ r ∈ rest, trimRegion align r = some r ∨ trimRegion align r = none) → d' = d) := by
  induction rest generalizing d fuel done with
  | nil =>
    obtain ⟨fuel, rfl⟩ : ∃ n, fuel = n + 1 := ⟨fuel - 1, by omega⟩
    have hdone : orDummy done = done := by simp_all [orDummy]
    exact ⟨d, by simp [trimLoop, hdone], fun _ => rfl⟩
  | cons r rest ih =>
    obtain ⟨fuel, rfl⟩ : ∃ n, fuel = n + 1 := ⟨fuel - 1, by omega⟩
    rw [trimLoop, booked_regions, getElem?_length_append]
    cases htrim : trimRegion align r with
    | some r' =>
      obtain ⟨d', hloop, hbooks⟩ := ih (d + r.size - r'.size) fuel (done ++ [r'])
        (by grind) (by simp)
      refine ⟨d', ?_, fun h => ?_⟩
      · simp only [set_booked]
        simpa [htrim] using hloop
      · grind
    | none =>
      simp only [htrim, filterMap_cons_none htrim, removeRegion_booked]
      by_cases hrest : done ++ rest = []
      · obtain ⟨rfl, rfl⟩ := append_eq_nil_iff.mp hrest
        exact ⟨d, trimLoop_dummy fuel, fun _ => rfl⟩
      · have hne' : orDummy (done ++ rest) = done ++ rest := by simp_all [orDummy]
        obtain ⟨d', hloop, hbooks⟩ := ih d fuel done (by grind) hrest
        rw [hne']
        exact ⟨d', hloop, fun h => hbooks fun s hs => h s (mem_cons_of_mem _ hs)⟩

/-- The addresses whose page of `n` addresses is in the set. -/
def wholePages (n : Nat) (S : Set Nat) : Set Nat :=
  {a | ∀ c, a / n * n ≤ c → c < a / n * n + n → c ∈ S}

def inner (n : Nat) (s : Span) : List Span := piece ((s.lo + (n - 1)) / n * n) (s.hi / n * n)

lemma covers_inner {s : Span} (hn : 0 < n) :
    Covers (inner n s) a ↔ s.lo ≤ a / n * n ∧ a / n * n + n ≤ s.hi := by
  obtain ⟨⟨-, hle⟩, hgreatest⟩ := isGreatest_multiple hn a
  obtain ⟨⟨hdvd, hlo⟩, hleast⟩ := isLeast_multiple hn s.lo
  obtain ⟨⟨hdvd', hhi⟩, hgreatest'⟩ := isGreatest_multiple hn s.hi
  have hnext : a < a / n * n + n := by
    rw [← Nat.succ_mul]
    exact Nat.lt_mul_of_div_lt (by omega) hn
  rw [inner, covers_piece]
  constructor
  · rintro ⟨hup, hdown⟩
    refine ⟨hlo.trans (hgreatest ⟨hdvd, hup⟩), ?_⟩
    have hquot : a / n < s.hi / n := by
      rwa [Nat.div_lt_iff_lt_mul hn]
    calc a / n * n + n = (a / n + 1) * n := (Nat.succ_mul _ _).symm
      _ ≤ s.hi / n * n := Nat.mul_le_mul_right n hquot
      _ ≤ s.hi := hhi
  · rintro ⟨hup, hdown⟩
    refine ⟨(hleast ⟨Nat.dvd_mul_left _ _, hup⟩).trans hle, hnext.trans_le ?_⟩
    exact hgreatest' ⟨⟨a / n + 1, by rw [← Nat.succ_mul, Nat.mul_comm]⟩, hdown⟩

lemma trimRegion_toList (hsolid : r.base < r.stop) :
    (trimRegion align r).toList = fragment (roundUp r.base align) (roundDown r.stop align) := by
  rw [trimRegion]
  split
  case isTrue hsame =>
    have hsize : r.stop - r.base = r.size := by
      rw [Region.stop]
      grind
    simp [fragment, hsame, hsolid, hsize]
  case isFalse hchange =>
    rw [fragment]
    split <;> rfl

lemma spans_trimRegion (hk : align.toNat = 2 ^ k) (hfit : r.span.hi < 2 ^ 32)
    (hsolid : r.span.lo < r.span.hi) (hup : r.base.toNat + (2 ^ k - 1) < 2 ^ 32) :
    spans (trimRegion align r).toList = inner (2 ^ k) r.span := by
  have hend := toNat_stop hfit
  have hlt : r.base < r.stop := by rwa [BitVec.lt_def, hend]
  have hstart := (isLeast_roundUp hk hup).unique (isLeast_multiple (Nat.two_pow_pos k) _)
  rw [trimRegion_toList hlt, spans_fragment, hstart, toNat_roundDown hk, hend]
  rfl

lemma spans_filterMap (hk : align.toNat = 2 ^ k) (hfit : Fits l) (hsolid : Solid (spans l))
    (hup : ∀ r ∈ l, r.base.toNat + (2 ^ k - 1) < 2 ^ 32) :
    spans (l.filterMap (trimRegion align)) = (spans l).flatMap (inner (2 ^ k)) := by
  rw [filterMap_eq_flatMap_toList, spans, spans, map_flatMap, flatMap_map]
  exact flatMap_congr fun r hr =>
    spans_trimRegion hk (hfit r hr) (hsolid _ (mem_map_of_mem hr)) (hup r hr)

lemma fits_filterMap (hsolid : Solid (spans l)) (hfit : Fits l) :
    Fits (l.filterMap (trimRegion align)) := by
  intro r' hr'
  obtain ⟨r, hr, htrim⟩ := mem_filterMap.mp hr'
  have hlt : r.base < r.stop := by
    rw [BitVec.lt_def, toNat_stop (hfit r hr)]
    exact hsolid r.span (mem_map_of_mem hr)
  have hfrag : Fits (trimRegion align r).toList := trimRegion_toList hlt ▸ fits_fragment
  exact hfrag r' (by simp [htrim])

lemma trimMemory_booked (d align : Word) (max : Nat) (hne : l ≠ []) :
    ∃ d', trimMemory align (booked d max l) =
        booked d' max (orDummy (l.filterMap (trimRegion align))) ∧
      (Books align (booked d max l) → d' = d) :=
  trimLoop_booked d _ [] (le_refl _) hne

lemma covers_flatMap_inner (hn : 0 < n) (h : Ascending 1 0 s) :
    Covers (s.flatMap (inner n)) a ↔ ∀ c, a / n * n ≤ c → c < a / n * n + n → Covers s c := by
  simp only [covers_flatMap, covers_inner hn]
  constructor
  · rintro ⟨t, ht, hlo, hhi⟩ c hc hc'
    exact ⟨t, ht, hlo.trans hc, hc'.trans_le hhi⟩
  · intro hall
    exact h.exists_span (by omega) hall

lemma ascending_inner {s : Span} (hn : 0 < n) : Ascending 1 s.lo (inner n s) := by
  obtain ⟨⟨-, hlo⟩, -⟩ := isLeast_multiple hn s.lo
  rw [← append_nil (inner n s)]
  exact ascending_piece_append hlo trivial fun _ => trivial

lemma ascending_flatMap_inner (hn : 0 < n) (h : Ascending 1 0 s) :
    Ascending 1 0 (s.flatMap (inner n)) := by
  apply ascending_flatMap h fun t _ => ascending_inner hn
  · intro t _ x hx
    have hle := (isGreatest_multiple hn t.hi).1.2
    grind [inner]
  · bv_omega

lemma WellFormed.ne_nil (h : WellFormed l) : l ≠ [] := by
  rcases h.solid with rfl | ⟨hne, -⟩
  · exact cons_ne_nil _ _
  · exact hne

lemma trimMemory_spec (h : Represents t S) (htrim : Trims align t) :
    Represents (trimMemory align t) (wholePages align.toNat S) ∧
      (Books align t → Balanced t → Balanced (trimMemory align t)) := by
  obtain ⟨⟨k, hk⟩, hup⟩ := htrim
  have hn := Nat.two_pow_pos k
  rw [hk] at hup ⊢
  obtain ⟨d', hmem, hbooks⟩ := trimMemory_booked
    (t.totalSize - total t.regions) align t.max h.wellFormed.ne_nil
  rw [← eq_booked] at hmem hbooks
  rw [hmem]
  refine ⟨?_, fun hb hbal => ?_⟩
  · rcases h.wellFormed.solid with hdummy | ⟨-, hsolid⟩
    · have htrimmed : orDummy (t.regions.filterMap (trimRegion align)) = t.regions := by
        simp [hdummy, trimRegion_dummy, orDummy]
      have hempty : ∀ a, a ∉ S := fun a => by
        rw [← h.covers, hdummy]
        simp [Region.dummy, Region.span]
      refine ⟨?_, fun a => ?_, h.room⟩
      · rw [htrimmed]
        exact h.wellFormed
      · rw [booked_regions, htrimmed, h.covers]
        refine iff_of_false (hempty a) fun hpage => ?_
        exact hempty _ (hpage _ le_rfl (by omega))
    · have hspans := spans_filterMap hk h.wellFormed.fits hsolid hup
      refine ⟨?_, fun a => ?_, h.room⟩
      · apply wellFormed_orDummy
        · rw [hspans]
          exact ascending_flatMap_inner hn h.wellFormed.ascending
        · rw [hspans]
          intro x hx
          obtain ⟨s, -, hxs⟩ := mem_flatMap.mp hx
          exact solid_piece x hxs
        · exact fits_filterMap hsolid h.wellFormed.fits
      · rw [booked_regions, covers_orDummy, hspans, covers_flatMap_inner hn h.wellFormed.ascending]
        simp only [h.covers]
        rfl
  · rw [balanced_booked, hbooks hb, hbal]
    exact BitVec.sub_self _

/-! ## The search -/

/-- The loop of `memblock_search`; the condition of its `do` is that of the next turn. -/
def searchLoop (l : List Region) (addr : Word) : Nat → Nat → Nat → Option Nat
  | 0, _, _ => none
  | fuel + 1, left, right =>
    let mid := (right + left) / 2
    let r := l.getD mid .dummy
    if addr < r.base then
      if left < mid then searchLoop l addr fuel left mid else none
    else if r.stop ≤ addr then
      if mid + 1 < right then searchLoop l addr fuel (mid + 1) right else none
    else some mid

/-- `memblock_search`, with `none` for `-1`. -/
def search (t : Regions) (addr : Word) : Option Nat := searchLoop t.regions addr t.cnt 0 t.cnt

lemma covers_spans :
    Covers (spans l) a ↔ ∃ i, ∃ h : i < l.length, l[i].span.lo ≤ a ∧ a < l[i].span.hi := by
  simp only [Covers, spans, mem_iff_getElem]
  grind

/-- The regions in front of `left` are below the address, and those from `right` on above. -/
structure Bracket (l : List Region) (addr left right : Nat) : Prop where
  lt : left < right
  le : right ≤ l.length
  below : ∀ i (h : i < l.length), i < left → l[i].span.hi ≤ addr
  above : ∀ i (h : i < l.length), right ≤ i → addr < l[i].span.lo

lemma not_covers_of_split {addr m : Nat}
    (hbelow : ∀ i (h : i < l.length), i < m → l[i].span.hi ≤ addr)
    (habove : ∀ i (h : i < l.length), m ≤ i → addr < l[i].span.lo) : ¬ Covers (spans l) addr := by
  rw [covers_spans]
  rintro ⟨i, hi, hlo, hhi⟩
  rcases lt_or_ge i m with him | him
  · exact absurd (hbelow i hi him) (by omega)
  · exact absurd (habove i hi him) (by omega)

lemma searchLoop_isSome {addr : Word} {fuel left right : Nat} (hfit : Fits l)
    (hsorted : l.Pairwise fun r s => r.span.hi < s.span.lo)
    (h : Bracket l addr.toNat left right) (hfuel : right ≤ left + fuel) :
    (searchLoop l addr fuel left right).isSome ↔ Covers (spans l) addr.toNat := by
  rw [pairwise_iff_getElem] at hsorted
  induction fuel generalizing left right with
  | zero => exact absurd h.lt (by omega)
  | succ fuel ih =>
    obtain ⟨hlt, hle, hbelow, habove⟩ := h
    obtain ⟨mid, hmid⟩ : ∃ mid, mid = (right + left) / 2 := ⟨_, rfl⟩
    have hlen : mid < l.length := by omega
    have hget : l.getD mid .dummy = l[mid] := by simp [hlen]
    have hend := toNat_stop (hfit l[mid] (getElem_mem hlen))
    have hspan : l[mid].span.lo ≤ l[mid].span.hi := Nat.le_add_right _ _
    rw [searchLoop, ← hmid, hget]
    by_cases hlow : addr < l[mid].base
    · have hlow' : addr.toNat < l[mid].span.lo := hlow
      have habove' : ∀ i (h : i < l.length), mid ≤ i → addr.toNat < l[i].span.lo := by
        intro i hi hmi
        rcases eq_or_lt_of_le hmi with rfl | hmi
        · exact hlow'
        · have := hsorted mid i hlen hi hmi
          omega
      simp only [hlow, if_true]
      split
      case isTrue hleft => exact ih ⟨hleft, by omega, hbelow, habove'⟩ (by omega)
      case isFalse hleft =>
        obtain rfl : mid = left := by omega
        exact iff_of_false (by simp) (not_covers_of_split hbelow habove')
    · simp only [hlow, if_false]
      by_cases hhigh : l[mid].stop ≤ addr
      · have hhigh' : l[mid].span.hi ≤ addr.toNat := by bv_omega
        have hbelow' : ∀ i (h : i < l.length), i < mid + 1 → l[i].span.hi ≤ addr.toNat := by
          intro i hi hmi
          rcases Nat.eq_or_lt_of_le (Nat.lt_succ_iff.mp hmi) with rfl | hmi
          · exact hhigh'
          · have := hsorted i mid hi hlen hmi
            omega
        simp only [hhigh, if_true]
        split
        case isTrue hright => exact ih ⟨hright, hle, hbelow', habove⟩ (by omega)
        case isFalse hright =>
          obtain rfl : right = mid + 1 := by omega
          exact iff_of_false (by simp) (not_covers_of_split hbelow' habove)
      · simp only [hhigh, if_false, Option.isSome_some, true_iff]
        refine covers_spans.mpr ⟨mid, hlen, Nat.le_of_not_lt hlow, ?_⟩
        rw [← hend]
        exact Nat.lt_of_not_le hhigh

lemma search_isSome (h : WellFormed t.regions) (addr : Word) :
    (search t addr).isSome ↔ Covers (spans t.regions) addr.toNat := by
  have hpos : 0 < t.regions.length := length_pos_iff.mpr h.ne_nil
  apply searchLoop_isSome h.fits h.sorted _ (by omega)
  exact ⟨hpos, Nat.le_refl _, by grind, by grind [Regions.cnt]⟩

/-! ## The machine -/

/-- `struct memblock`. -/
structure Blocks where
  memory : Regions
  reserved : Regions
  currentLimit : Word
  deriving DecidableEq, Repr

/-- The state at boot, with `MEMBLOCK_ALLOC_ANYWHERE` for the limit. -/
def Blocks.init : Blocks := ⟨.init, .init, 0xffffffff⟩

inductive Op where
  | add (base size : Word)
  | remove (base size : Word)
  | reserve (base size : Word)
  | free (base size : Word)
  | trim (align : Word)
  deriving DecidableEq, Repr

/-- `memblock_add`, `memblock_remove`, `memblock_reserve`, `memblock_free` and
`memblock_trim_memory`. -/
def call (s : Blocks) : Op → Option Blocks
  | .add base size => do
    let t ← addRegion s.memory base size
    some { s with memory := t }
  | .remove base size => do
    let t ← removeRange s.memory base size
    some { s with memory := t }
  | .reserve base size => do
    let t ← addRegion s.reserved base size
    some { s with reserved := t }
  | .free base size => do
    let t ← removeRange s.reserved base size
    some { s with reserved := t }
  | .trim align => some { s with memory := trimMemory align s.memory }

/-- A call to a machine that has not stopped at a `BUG_ON`. -/
def step (s : Option Blocks) (op : Op) : Option Blocks := s.bind (call · op)

def isMemory (s : Blocks) (addr : Word) : Bool := (search s.memory addr).isSome

/-- What memblock is for: a set of addresses that are memory and a set of reserved ones. -/
structure Sets where
  memory : Set Nat
  reserved : Set Nat

def Sets.init : Sets := ⟨∅, ∅⟩

def Sets.step (s : Sets) : Op → Sets
  | .add base size => { s with memory := s.memory ∪ addresses base size }
  | .remove base size => { s with memory := s.memory \ addresses base size }
  | .reserve base size => { s with reserved := s.reserved ∪ addresses base size }
  | .free base size => { s with reserved := s.reserved \ addresses base size }
  | .trim align => { s with memory := wholePages align.toNat s.memory }

def Sound (s : Option Blocks) : Op → Prop
  | .trim align => ∀ b ∈ s, Trims align b.memory
  | _ => True

def Exact (s : Option Blocks) : Op → Prop
  | .trim align => ∀ b ∈ s, Books align b.memory
  | _ => True

/-- The arrays stand for the sets, and what is reserved is booked. -/
structure Stands (b : Blocks) (s : Sets) : Prop where
  memory : Represents b.memory s.memory
  reserved : Represents b.reserved s.reserved
  balanced : Balanced b.reserved

lemma represents_init : Represents .init ∅ where
  wellFormed := ⟨pairwise_singleton _ _, .inl rfl, by simp [Regions.init, Region.dummy,
    Region.span]⟩
  covers a := by simp [Regions.init, Region.dummy, Region.span]
  room := by decide

/-- One call is the operation on the sets. -/
lemma call_spec {b : Blocks} {s : Sets} {op : Op} (h : Stands b s) (hsound : Sound (some b) op) :
    ∃ b', call b op = some b' ∧ Stands b' (s.step op) ∧
      (Exact (some b) op → Balanced b.memory → Balanced b'.memory) := by
  cases op with
  | add base size =>
    obtain ⟨t, hadd, ht, hbal⟩ := addRegion_spec h.memory base size
    exact ⟨{ b with memory := t }, by simp [call, hadd], ⟨ht, h.reserved, h.balanced⟩,
      fun _ => hbal⟩
  | remove base size =>
    obtain ⟨t, hremove, ht, hbal⟩ := removeRange_spec h.memory base size
    exact ⟨{ b with memory := t }, by simp [call, hremove], ⟨ht, h.reserved, h.balanced⟩,
      fun _ => hbal⟩
  | reserve base size =>
    obtain ⟨t, hadd, ht, hbal⟩ := addRegion_spec h.reserved base size
    exact ⟨{ b with reserved := t }, by simp [call, hadd], ⟨h.memory, ht, hbal h.balanced⟩,
      fun _ => id⟩
  | free base size =>
    obtain ⟨t, hremove, ht, hbal⟩ := removeRange_spec h.reserved base size
    exact ⟨{ b with reserved := t }, by simp [call, hremove], ⟨h.memory, ht, hbal h.balanced⟩,
      fun _ => id⟩
  | trim align =>
    obtain ⟨ht, hbal⟩ := trimMemory_spec h.memory (hsound b rfl)
    exact ⟨{ b with memory := trimMemory align b.memory }, rfl, ⟨ht, h.reserved, h.balanced⟩,
      fun hexact => hbal (hexact b rfl)⟩

/-- After the admitted calls the machine runs and stands for the sets of the same calls. -/
lemma run_stands (h : Along step Sound (some .init) ops) :
    ∃ b, runFrom step (some .init) ops = some b ∧ Stands b (runFrom Sets.step .init ops) := by
  apply h.simulation (R := fun s t => ∃ b, s = some b ∧ Stands b t)
  · rintro _ t op ⟨b, rfl, hb⟩ hsound
    obtain ⟨b', hcall, hb', -⟩ := call_spec hb hsound
    exact ⟨b', hcall, hb'⟩
  · exact ⟨.init, rfl, represents_init, represents_init, rfl⟩

lemma run_balanced (h : Along step Sound (some .init) ops)
    (hexact : Along step Exact (some .init) ops) :
    ∀ b ∈ runFrom step (some .init) ops, Balanced b.memory := by
  have hrun : ∃ b, runFrom step (some .init) ops = some b ∧
      Stands b (runFrom Sets.step .init ops) ∧ Balanced b.memory := by
    apply (h.and hexact).simulation (R := fun s t => ∃ b, s = some b ∧ Stands b t ∧
      Balanced b.memory)
    · rintro _ t op ⟨b, rfl, hb, hbal⟩ ⟨hsound, hex⟩
      obtain ⟨b', hcall, hb', hkeep⟩ := call_spec hb hsound
      exact ⟨b', hcall, hb', hkeep hex hbal⟩
    · exact ⟨.init, rfl, ⟨represents_init, represents_init, rfl⟩, rfl⟩
  obtain ⟨b, hb, -, hbal⟩ := hrun
  intro b' hb'
  obtain rfl : b = b' := Option.some.inj (hb.symm.trans hb')
  exact hbal

def sizes (l : List Region) : Nat := (l.map fun r => r.size.toNat).sum

lemma toNat_total {b : Nat} (hasc : Ascending 0 b (spans l)) (hfit : Fits l)
    (hb : b < 2 ^ 32) : b + sizes l < 2 ^ 32 ∧ (total l).toNat = sizes l := by
  induction l generalizing b with
  | nil => exact ⟨hb, rfl⟩
  | cons r l ih =>
    rw [fits_cons] at hfit
    obtain ⟨hbound, htotal⟩ := ih hasc.2.2 hfit.2 hfit.1
    have hle : b ≤ r.base.toNat := hasc.1
    have hspan : r.span.hi = r.base.toNat + r.size.toNat := rfl
    have hsizes : sizes (r :: l) = r.size.toNat + sizes l := by simp [sizes]
    refine ⟨by omega, ?_⟩
    rw [total, BitVec.toNat_add_of_lt (by omega), htotal, hsizes]

lemma Represents.toNat_totalSize (h : Represents t S)
    (hbal : Balanced t) : t.totalSize.toNat = sizes t.regions := by
  rw [hbal]
  exact (toNat_total (h.wellFormed.ascending.relax (Nat.zero_le 1)) h.wellFormed.fits (by decide)).2

/-- memblock is a set of addresses: whatever the calls, if every trimming finds regions whose
rounded ends are addresses, both arrays are in order and stand for the sets of the corresponding
unions, differences and trimmings, `memblock_is_memory` finds exactly the memory, and
`total_size` is the sum of the sizes, for the memory if no trimming shrinks a region. -/
theorem memblock_is_set (ops : List Op) (h : Along step Sound (some .init) ops) :
    ∃ b, runFrom step (some .init) ops = some b ∧
      WellFormed b.memory.regions ∧ WellFormed b.reserved.regions ∧
      (∀ a, Covers (spans b.memory.regions) a ↔ a ∈ (runFrom Sets.step .init ops).memory) ∧
      (∀ a, Covers (spans b.reserved.regions) a ↔ a ∈ (runFrom Sets.step .init ops).reserved) ∧
      (∀ a : Word, isMemory b a ↔ a.toNat ∈ (runFrom Sets.step .init ops).memory) ∧
      b.reserved.totalSize.toNat = sizes b.reserved.regions ∧
      (Along step Exact (some .init) ops →
        b.memory.totalSize.toNat = sizes b.memory.regions) := by
  obtain ⟨b, hrun, hb⟩ := run_stands h
  refine ⟨b, hrun, hb.memory.wellFormed, hb.reserved.wellFormed, hb.memory.covers,
    hb.reserved.covers, fun a => ?_, hb.reserved.toNat_totalSize hb.balanced, fun hexact => ?_⟩
  · rw [isMemory, search_isSome hb.memory.wellFormed, hb.memory.covers]
  · exact hb.memory.toNat_totalSize (run_balanced h hexact b hrun)

/-- Two megabytes of memory with two holes in them, and a page reserved and freed in part. -/
def holes : List Op :=
  [.add 0x30000000 0x200000, .remove 0x30001000 0x800, .reserve 0x30000800 0x1000,
    .free 0x30001000 0x100, .remove 0x30002000 0x1000]

lemma holes_trims : Along step Sound (some .init) (holes ++ [.trim 0x1000]) ∧
    Along step Exact (some .init) (holes ++ [.trim 0x1000]) := by
  -- The memory between the holes is half a page.
  have hmemory : ∀ b ∈ runFrom step (some .init) holes, b.memory.regions =
      [⟨0x30000000, 0x1000⟩, ⟨0x30001800, 0x800⟩, ⟨0x30003000, 0x1fd000⟩] := by decide
  constructor
  · refine along_append.mpr ⟨by simp [holes, Sound], ⟨fun b hb => ⟨⟨12, rfl⟩, ?_⟩, trivial⟩⟩
    rw [hmemory b hb]
    decide
  · refine along_append.mpr ⟨by simp [holes, Exact], ⟨fun b hb => ?_, trivial⟩⟩
    rw [Books, hmemory b hb]
    decide

theorem holes_is_set : ∃ b, runFrom step (some .init) (holes ++ [.trim 0x1000]) = some b ∧
    b.memory.totalSize.toNat = sizes b.memory.regions ∧
    ∀ a : Word, isMemory b a ↔
      a.toNat ∈ (runFrom Sets.step .init (holes ++ [.trim 0x1000])).memory := by
  obtain ⟨b, hrun, -, -, -, -, hmemory, -, htotal⟩ := memblock_is_set _ holes_trims.1
  exact ⟨b, hrun, htotal holes_trims.2, hmemory⟩

/-- A trimming that shrinks a region does not book it: two pages that are not aligned are left
as one, and count as two. -/
theorem trim_not_booked :
    ¬ ∀ ops, ∃ b, runFrom step (some .init) ops = some b ∧
      b.memory.totalSize.toNat = sizes b.memory.regions := by
  intro h
  obtain ⟨b, hrun, htotal⟩ := h [.add 0x30000800 0x2000, .trim 0x1000]
  have hstate : runFrom step (some .init) [.add 0x30000800 0x2000, .trim 0x1000] =
      some ⟨⟨[⟨0x30001000, 0x1000⟩], 0x2000, 128⟩, .init, 0xffffffff⟩ := by
    decide
  obtain rfl := Option.some.inj (hstate.symm.trans hrun)
  revert htotal
  decide

/-- A region that begins in the last page is trimmed to one that begins at address zero. -/
example : (runFrom step (some .init) [.add 0xffffe000 0x1000, .add 0xfffff800 0x400,
    .trim 0x1000]).map (·.memory.regions) =
      some [⟨0xffffe000, 0x1000⟩, ⟨0, 0xfffff000⟩] := by
  decide

end Mini2440.Memblock
