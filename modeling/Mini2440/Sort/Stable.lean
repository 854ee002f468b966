import Mini2440.Library.Linked
import Mini2440.Library.StableSort
import Mini2440.Sort.ListSort

/-!
# The list is sorted stably

Each slot of the array holds a stable rearrangement of a segment of the list that has been taken
apart so far, an older segment in a higher slot. A merge puts two neighbouring segments together,
the older one first, so that ties are decided for it.
-/

namespace Mini2440.Sort

open List Function Library

variable {ι : Type} {cmp : ι → ι → Int} {U : ι → Prop} {h h' : Heap ι} {xs ys zs seg seg' : List ι}
  {a b first tail p q : Option ι} {c t head : ι} {fuel : Nat}

/-! ## The merge of null-terminated lists -/

section Merge

variable [DecidableEq ι]

lemma next_linkTail :
    (h.linkTail first tail q).1.next c = if tail = some c then q else h.next c := by
  cases tail with
  | none => rfl
  | some t =>
    rw [Heap.linkTail, Heap.setNext]
    simp [update_apply, eq_comm]

lemma first_linkTail :
    (h.linkTail first tail q).2 = if tail = none then q else first := by
  cases tail <;> rfl

lemma mergeLoop_some (x y : ι) :
    h.mergeLoop cmp (fuel + 1) first tail (some x) (some y) =
      if cmp x y ≤ 0 then
        (h.linkTail first tail (some x)).1.mergeLoop cmp fuel
          (h.linkTail first tail (some x)).2 (some x)
          ((h.linkTail first tail (some x)).1.next x) (some y)
      else
        (h.linkTail first tail (some y)).1.mergeLoop cmp fuel
          (h.linkTail first tail (some y)).2 (some y) (some x)
          ((h.linkTail first tail (some y)).1.next y) := rfl

lemma mergeLoop_none
    (hnone : a = none ∨ b = none) :
    h.mergeLoop cmp (fuel + 1) first tail a b = some (h.linkTail first tail (a.or b)) := by
  rcases hnone with rfl | rfl
  · rfl
  · cases a <;> rfl

/-- The rest of the loop links the nodes `zs` behind `tail`. -/
def Links (h : Heap ι) (first tail : Option ι) (zs : List ι) (r : Option (Heap ι × Option ι)) :
    Prop :=
  ∃ h', r = some (h', if tail = none then zs.head? else first) ∧ Linked h'.next zs.head? zs ∧
    (∀ t, tail = some t → h'.next t = zs.head?) ∧
    ∀ c, c ∉ zs → tail ≠ some c → h'.next c = h.next c

lemma linked_linkTail (first tail q : Option ι) (hz : Linked h.next p zs)
    (htail : ∀ t, tail = some t → t ∉ zs) : Linked (h.linkTail first tail q).1.next p zs :=
  hz.congr fun c hc => by rw [next_linkTail, if_neg fun ht => htail c ht hc]

lemma links_rest (hz : Linked h.next q zs) (htail : ∀ t, tail = some t → t ∉ zs) :
    Links h first tail zs (some (h.linkTail first tail q)) := by
  refine ⟨(h.linkTail first tail q).1, ?_, ?_, fun t ht => ?_, fun c _ hc => ?_⟩
  · rw [← hz.head, ← first_linkTail]
  · exact hz.head ▸ linked_linkTail first tail q hz htail
  · rw [next_linkTail, if_pos ht, hz.head]
  · rw [next_linkTail, if_neg hc]

lemma Links.cons {x : ι} {r : Option (Heap ι × Option ι)}
    (hr : Links (h.linkTail first tail (some x)).1 (h.linkTail first tail (some x)).2 (some x) zs r)
    (htail : ∀ t, tail = some t → t ∉ x :: zs) : Links h first tail (x :: zs) r := by
  obtain ⟨h', hrun, hlinked, hnext, hframe⟩ := hr
  have hkept : ∀ c, c ∉ x :: zs → h'.next c = if tail = some c then some x else h.next c := by
    intro c hc
    obtain ⟨hcx, hcz⟩ : c ≠ x ∧ c ∉ zs := by simpa using hc
    rw [hframe c hcz fun heq => hcx (Option.some.inj heq).symm, next_linkTail]
  refine ⟨h', ?_, ⟨rfl, ?_⟩, fun t ht => ?_, fun c hc ht => ?_⟩
  · rw [hrun, first_linkTail]
    rfl
  · rwa [hnext x rfl]
  · rw [hkept t (htail t ht), if_pos ht]
    rfl
  · rw [hkept c hc, if_neg ht]

lemma mergeLoop_links (hx : Linked h.next a xs) (hy : Linked h.next b ys)
    (hfuel : xs.length + ys.length < fuel) (hnd : (xs ++ ys).Nodup)
    (htail : ∀ t, tail = some t → t ∉ xs ++ ys) :
    Links h first tail (mergeBy cmp xs ys) (h.mergeLoop cmp fuel first tail a b) := by
  induction xs, ys using mergeBy_induction cmp generalizing h a b first tail fuel with
  | left ys =>
    obtain _ | fuel := fuel
    · omega
    rw [hx.head, mergeBy_nil_left]
    exact links_rest hy htail
  | right x xs =>
    obtain _ | fuel := fuel
    · omega
    rw [append_nil] at htail
    rw [mergeLoop_none (.inr hy), hy, mergeBy_nil_right, Option.or_none]
    exact links_rest hx htail
  | le x xs y ys hle ih =>
    obtain _ | fuel := fuel
    · omega
    have hx' := linked_linkTail first tail (some x) hx (by grind)
    have hy' := linked_linkTail first tail (some x) hy (by grind)
    obtain ⟨rfl, -⟩ := hx
    obtain ⟨rfl, -⟩ := hy
    obtain ⟨hxnd, hnd⟩ := nodup_cons.mp hnd
    rw [mergeLoop_some, if_pos hle, mergeBy_cons_le hle]
    refine Links.cons (ih hx'.2 hy' (by grind) hnd fun t ht => ?_) (by grind [mem_mergeBy])
    exact Option.some.inj ht ▸ hxnd
  | not_le x xs y ys hle ih =>
    obtain _ | fuel := fuel
    · omega
    have hx' := linked_linkTail first tail (some y) hx (by grind)
    have hy' := linked_linkTail first tail (some y) hy (by grind)
    obtain ⟨rfl, -⟩ := hx
    obtain ⟨rfl, -⟩ := hy
    obtain ⟨hynd, hnd⟩ := nodup_middle.mp hnd |> nodup_cons.mp
    rw [mergeLoop_some, if_neg hle, mergeBy_cons_not_le hle]
    refine Links.cons (ih hx' hy'.2 (by grind) hnd fun t ht => ?_) (by grind [mem_mergeBy])
    exact Option.some.inj ht ▸ hynd

/-- The list at `p` is a stable rearrangement of the segment. -/
def Slot (cmp : ι → ι → Int) (h : Heap ι) (p : Option ι) (seg : List ι) : Prop :=
  ∃ ps, Linked h.next p ps ∧ StableOf cmp seg ps

omit [DecidableEq ι] in
lemma Slot.congr (hs : Slot cmp h p seg) (hag : ∀ c ∈ seg, h'.next c = h.next c) :
    Slot cmp h' p seg := by
  obtain ⟨ps, hlinked, hstable⟩ := hs
  exact ⟨ps, hlinked.congr fun c hc => hag c (hstable.perm.mem_iff.mp hc), hstable⟩

omit [DecidableEq ι] in
lemma Slot.none_iff (hs : Slot cmp h p seg) : p = none ↔ seg = [] := by
  obtain ⟨ps, hlinked, hstable⟩ := hs
  rw [hlinked.head, head?_eq_none_iff]
  constructor <;> rintro rfl
  · exact nil_perm.mp hstable.perm
  · exact perm_nil.mp hstable.perm

/-- The nodes of a list can be compared, and the fuel is enough for them. -/
structure Sortable (U : ι → Prop) (fuel : Nat) (l : List ι) : Prop where
  all : ∀ c ∈ l, U c
  length_lt : l.length < fuel
  nodup : l.Nodup

omit [DecidableEq ι] in
lemma Sortable.sublist (hl : Sortable U fuel xs) (hsub : ys <+ xs) : Sortable U fuel ys :=
  ⟨fun c hc => hl.all c (hsub.subset hc), lt_of_le_of_lt hsub.length_le hl.length_lt,
    hl.nodup.sublist hsub⟩

lemma merge_slot (hcmp : PreorderOn U cmp) (hp : Slot cmp h p seg) (hq : Slot cmp h q seg')
    (hl : Sortable U fuel (seg ++ seg')) :
    ∃ h' r, h.merge cmp fuel p q = some (h', r) ∧ Slot cmp h' r (seg ++ seg') ∧
      ∀ c, c ∉ seg ++ seg' → h'.next c = h.next c := by
  obtain ⟨ps, hps, hstable⟩ := hp
  obtain ⟨qs, hqs, hstable'⟩ := hq
  have hperm := hstable.perm.append hstable'.perm
  have hlen := length_append ▸ hperm.length_eq ▸ hl.length_lt
  have hlinks : Links h none none (mergeBy cmp ps qs) (h.merge cmp fuel p q) :=
    mergeLoop_links hps hqs hlen (hperm.nodup_iff.mpr hl.nodup) nofun
  obtain ⟨h', hrun, hlinked, -, hframe⟩ := hlinks
  refine ⟨h', _, hrun, ⟨_, hlinked, hstable.merge hcmp (fun c hc => hl.all c (by simp [hc]))
    (fun c hc => hl.all c (by simp [hc])) hstable'⟩, fun c hc => hframe c (fun hmem => hc ?_) nofun⟩
  exact hperm.mem_iff.mp (mergeBy_perm.mem_iff.mp hmem)

end Merge

/-! ## Taking the list apart -/

/-- The segments of the first `n` slots, the highest slot first. -/
def stacked (segs : Nat → List ι) : Nat → List ι
  | 0 => []
  | n + 1 => segs n ++ stacked segs n

section Stacked

variable {segs segs' : Nat → List ι} {n m lev : Nat}

lemma mem_stacked : c ∈ stacked segs n ↔ ∃ k < n, c ∈ segs k := by
  induction n with
  | zero => simp [stacked]
  | succ n ih =>
    rw [stacked, mem_append, ih, Nat.exists_lt_succ_right, or_comm]

lemma mem_stacked_of_mem (hhigh : ∀ k, n ≤ k → segs k = []) (hc : c ∈ segs m) :
    c ∈ stacked segs n := by
  refine mem_stacked.mpr ⟨m, ?_, hc⟩
  by_contra hge
  rw [hhigh m (Nat.le_of_not_lt hge)] at hc
  exact absurd hc (by simp)

lemma update_nil (hempty : segs m = []) : update segs lev [] m = [] := by
  by_cases hm : m = lev
  · subst hm
    exact update_self ..
  · rwa [update_of_ne hm]

lemma stacked_of_le (hmn : m ≤ n) (hempty : ∀ k, m ≤ k → k < n → segs k = []) :
    stacked segs n = stacked segs m := by
  induction n with
  | zero => rw [Nat.le_zero.mp hmn]
  | succ n ih =>
    rcases Nat.eq_or_lt_of_le hmn with rfl | hlt
    · rfl
    · rw [stacked, hempty n (by omega) (by omega), nil_append,
        ih (by omega) fun k hk hkn => hempty k hk (by omega)]

lemma stacked_empty (hempty : ∀ k < n, segs k = []) : stacked segs n = [] :=
  stacked_of_le (Nat.zero_le n) fun k _ hk => hempty k hk

/-- A segment in the lowest slot that is not empty comes last. -/
lemma stacked_lowest (hlev : lev < n) (hbelow : ∀ k < lev, segs k = []) :
    stacked segs n = stacked (update segs lev []) n ++ segs lev := by
  induction n with
  | zero => omega
  | succ n ih =>
    rcases Nat.lt_succ_iff_lt_or_eq.mp hlev with hlt | rfl
    · rw [stacked, stacked, ih hlt, update_of_ne (by omega), append_assoc]
    · rw [stacked, stacked, stacked_empty hbelow,
        stacked_empty fun k hk => update_nil (hbelow k hk)]
      simp

lemma stacked_suffix (hmn : m ≤ n) : stacked segs m <:+ stacked segs n := by
  induction n with
  | zero => rw [Nat.le_zero.mp hmn]
  | succ n ih =>
    rcases Nat.eq_or_lt_of_le hmn with rfl | hlt
    · exact suffix_refl _
    · exact (ih (by omega)).trans (suffix_append _ _)

lemma not_mem_stacked (hnd : (stacked segs n).Nodup) (hk : lev < n) (hm : m ≤ lev)
    (hc : c ∈ segs lev) : c ∉ stacked segs m := fun hmem =>
  (nodup_append.mp (hnd.sublist (stacked_suffix hk).sublist)).2.2 c hc c
    ((stacked_suffix hm).mem hmem) rfl

end Stacked

section Distribute

variable [DecidableEq ι] {segs : Nat → List ι} {part : Nat → Option ι} {cur list : Option ι}
  {n lev top maxLev : Nat}

omit [DecidableEq ι] in
lemma slots_update (hs : Slot cmp h p seg) (hslots : ∀ k, k ≠ lev → Slot cmp h (part k) (segs k))
    (k : Nat) : Slot cmp h (update part lev p k) (update segs lev seg k) := by
  by_cases hk : k = lev
  · subst hk
    rwa [update_self, update_self]
  · rw [update_of_ne hk, update_of_ne hk]
    exact hslots k hk

/-- What the scan leaves: the slots up to the free one are empty, and their segments are in `cur`.
-/
structure Climbed (cmp : ι → ι → Int) (h : Heap ι) (segs : Nat → List ι) (seg : List ι) (lev : Nat)
    (h' : Heap ι) (part' : Nat → Option ι) (cur' : Option ι) (segs' : Nat → List ι)
    (seg' : List ι) : Prop where
  slots : ∀ k, Slot cmp h' (part' k) (segs' k)
  cur : Slot cmp h' cur' seg'
  below : ∀ k ≤ lev, segs' k = []
  above : ∀ k, lev < k → segs' k = segs k
  stacked_eq : stacked segs' maxListLengthBits ++ seg' = stacked segs maxListLengthBits ++ seg
  frame : ∀ c, c ∉ stacked segs maxListLengthBits ++ seg → h'.next c = h.next c

lemma climb_spec (hcmp : PreorderOn U cmp) (hslots : ∀ k, Slot cmp h (part k) (segs k))
    (hcur : Slot cmp h cur seg) (hbelow : ∀ k < lev, segs k = [])
    (hhigh : ∀ k, maxListLengthBits ≤ k → segs k = []) (hlev : lev ≤ top)
    (htop : top ≤ maxListLengthBits) (hfree : segs top = []) (hn : top < lev + n)
    (hl : Sortable U fuel (stacked segs maxListLengthBits ++ seg)) :
    ∃ h' part' cur' lev' segs' seg', h.climb cmp fuel n part cur lev =
        some (h', part', cur', lev') ∧ lev ≤ lev' ∧ lev' ≤ top ∧
      Climbed cmp h segs seg lev' h' part' cur' segs' seg' := by
  induction n generalizing h part cur lev segs seg with
  | zero => omega
  | succ n ih =>
    cases hp : part lev with
    | none =>
      have hempty := (hslots lev).none_iff.mp hp
      refine ⟨h, part, cur, lev, segs, seg, by rw [Heap.climb, hp], le_refl lev, hlev, hslots,
        hcur, fun k hk => ?_, fun _ _ => rfl, rfl, fun _ _ => rfl⟩
      rcases eq_or_lt_of_le hk with rfl | hk
      · exact hempty
      · exact hbelow k hk
    | some x =>
      have hne : lev ≠ top := by
        rintro rfl
        exact absurd ((hslots lev).none_iff.mpr hfree) (by simp [hp])
      have hsplit : stacked segs maxListLengthBits ++ seg =
          stacked (update segs lev []) maxListLengthBits ++ (segs lev ++ seg) := by
        rw [stacked_lowest (by omega) hbelow, append_assoc]
      rw [hsplit] at hl
      obtain ⟨h₁, r, hrun, hmerged, hframe⟩ := merge_slot hcmp (hp ▸ hslots lev) hcur
        (hl.sublist (sublist_append_right ..))
      have hslots₁ := slots_update ⟨[], rfl, .nil⟩ fun k (hk : k ≠ lev) =>
        (hslots k).congr fun c hc => hframe c fun hmem =>
          (nodup_append.mp hl.nodup).2.2 c (mem_stacked_of_mem
            (fun k hk => update_nil (hhigh k hk))
            ((update_of_ne hk [] segs).symm ▸ hc)) c hmem rfl
      have hbelow₁ : ∀ k < lev + 1, update segs lev [] k = [] := fun k hk => by
        rcases Nat.lt_succ_iff_lt_or_eq.mp hk with hk | rfl
        · exact update_nil (hbelow k hk)
        · exact update_self ..
      obtain ⟨h', part', cur', lev', segs', seg', hrest, hle, hle', hclimbed⟩ := ih hslots₁ hmerged
        hbelow₁ (fun k hk => update_nil (hhigh k hk)) (by omega) (update_nil hfree) (by omega) hl
      refine ⟨h', part', cur', lev', segs', seg', ?_, by omega, hle', hclimbed.slots, hclimbed.cur,
        hclimbed.below, fun k hk => ?_, hclimbed.stacked_eq.trans hsplit.symm, fun c hc => ?_⟩
      · rw [Heap.climb, hp]
        dsimp only
        rw [hrun]
        exact hrest
      · rw [hclimbed.above k hk, update_of_ne (by omega)]
      · rw [hsplit] at hc
        rw [hclimbed.frame c hc, hframe c fun hmem => hc (mem_append_right _ hmem)]

structure Distributed (cmp : ι → ι → Int) (h : Heap ι) (part : Nat → Option ι) (maxLev : Nat)
    (segs : Nat → List ι) (done : List ι) : Prop where
  slots : ∀ k, Slot cmp h (part k) (segs k)
  above : ∀ k, maxLev < k → segs k = []
  maxLev_lt : maxLev < maxListLengthBits
  stacked_eq : stacked segs maxListLengthBits = done

/-- The slot that the scan ends with is below the sentinel. -/
lemma chooseLevel_spec {lev : Nat} (hlev : lev ≤ maxLev + 1) (hmax : maxLev < maxListLengthBits) :
    ∃ slot maxLev', Heap.chooseLevel lev maxLev = (slot, maxLev') ∧ slot ≤ lev ∧ slot ≤ maxLev' ∧
      maxLev ≤ maxLev' ∧ maxLev' < maxListLengthBits := by
  unfold Heap.chooseLevel partSize
  split
  · split <;> exact ⟨_, _, rfl, by omega, by omega, by omega, by omega⟩
  · exact ⟨_, _, rfl, by omega, by omega, by omega, by omega⟩

lemma distribute_spec (hcmp : PreorderOn U cmp) {done rest : List ι}
    (hd : Distributed cmp h part maxLev segs done)
    (hlist : Linked h.next list rest) (hn : rest.length < n)
    (hl : Sortable U fuel (done ++ rest)) :
    ∃ h' part' maxLev' segs', h.distribute cmp fuel n part maxLev list =
        some (h', part', maxLev') ∧ Distributed cmp h' part' maxLev' segs' (done ++ rest) := by
  induction rest, n, hn using walk_induction generalizing h part maxLev segs done list with
  | nil n =>
    rw [hlist, append_nil]
    exact ⟨h, part, maxLev, segs, rfl, hd⟩
  | cons x rest n hn ih =>
    obtain ⟨rfl, hlist⟩ := hlist
    have happ : done ++ x :: rest = done ++ [x] ++ rest := by simp
    rw [happ] at hl ⊢
    have hdone := hd.stacked_eq
    have hl₁ := hl.sublist (sublist_append_left ..)
    have hmax := hd.maxLev_lt
    have hhigh : ∀ k, maxListLengthBits ≤ k → segs k = [] := fun k hk => hd.above k (by omega)
    have hx : ∀ k, x ∉ segs k := fun k hmem =>
      (nodup_append.mp hl₁.nodup).2.2 x (hdone ▸ mem_stacked_of_mem hhigh hmem) x (by simp) rfl
    have hset : ∀ c, c ≠ x → (h.setNext x none).next c = h.next c := fun c hc =>
      update_of_ne hc _ _
    have hslots : ∀ k, Slot cmp (h.setNext x none) (part k) (segs k) := fun k =>
      (hd.slots k).congr fun c hc => hset c fun heq => hx k (heq ▸ hc)
    have hcur : Slot cmp (h.setNext x none) (some x) [x] := ⟨[x], ⟨rfl, update_self ..⟩, .singleton⟩
    have hnone : ∀ k < 0, segs k = [] := fun k hk => by omega
    have hscan : maxLev + 1 < 0 + partSize := by
      unfold partSize
      omega
    obtain ⟨h₁, part₁, cur₁, lev, segs₁, seg₁, hrun, -, hle, hclimbed⟩ :=
      climb_spec hcmp hslots hcur hnone hhigh (Nat.zero_le _) hmax
        (hd.above _ (Nat.lt_succ_self _)) hscan (hdone ▸ hl₁)
    obtain ⟨slot, maxLev', hchoose, hslot, hslot', hmaxLev, hlt⟩ := chooseLevel_spec hle hmax
    have hempty : update segs₁ slot [] = segs₁ := by
      rw [← hclimbed.below slot hslot, update_eq_self]
    have hnext : Distributed cmp h₁ (update part₁ slot cur₁) maxLev'
        (update segs₁ slot seg₁) (done ++ [x]) := by
      refine ⟨slots_update hclimbed.cur fun k _ => hclimbed.slots k, fun k hk => ?_, hlt, ?_⟩
      · rw [update_of_ne (by omega)]
        rcases lt_or_ge lev k with hk' | hk'
        · rw [hclimbed.above k hk', hd.above k (by omega)]
        · exact hclimbed.below k hk'
      · rw [stacked_lowest (lt_of_le_of_lt hslot' hlt) fun k hk => by
            rw [update_of_ne (by omega), hclimbed.below k (by omega)],
          update_idem, hempty, update_self, hclimbed.stacked_eq, hdone]
    have hrest : Linked h₁.next (h.next x) rest := hlist.congr fun c hc => by
      have hout : c ∉ done ++ [x] := fun hmem => (nodup_append.mp hl.nodup).2.2 c hmem c hc rfl
      rw [hclimbed.frame c (by rwa [hdone]), hset c fun heq => hout (by simp [heq])]
    obtain ⟨h', part', maxLev'', segs', hrun', hd'⟩ := ih hnext hrest hl
    refine ⟨h', part', maxLev'', segs', ?_, hd'⟩
    rw [Heap.distribute, hrun]
    dsimp only [bind, Option.bind]
    rw [hchoose]
    exact hrun'

/-- The lists in the slots below `max_lev` are merged from the lowest slot on. -/
lemma collect_spec (hcmp : PreorderOn U cmp)
    (hslots : ∀ k, lev ≤ k → k ≤ lev + n → Slot cmp h (part k) (segs k))
    (hlist : Slot cmp h list (stacked segs lev))
    (hl : Sortable U fuel (stacked segs (lev + n + 1))) :
    ∃ h' list', h.collect cmp fuel part n lev list = some (h', list') ∧
      Slot cmp h' (part (lev + n)) (segs (lev + n)) ∧
      Slot cmp h' list' (stacked segs (lev + n)) := by
  induction n generalizing h lev list with
  | zero => exact ⟨h, list, rfl, hslots lev (le_refl _) (le_refl _), hlist⟩
  | succ n ih =>
    have hshift : lev + (n + 1) = lev + 1 + n := by omega
    rw [hshift] at hl hslots ⊢
    have hslot := hslots lev (le_refl _) (by omega)
    cases hp : part lev with
    | none =>
      have hempty := hslot.none_iff.mp hp
      have hlist' : Slot cmp h list (stacked segs (lev + 1)) := by
        rwa [stacked, hempty]
      rw [Heap.collect, hp]
      exact ih (fun k hk hk' => hslots k (by omega) hk') hlist' hl
    | some x =>
      have hsuffix : stacked segs (lev + 1) <:+ stacked segs (lev + 1 + n + 1) :=
        stacked_suffix (by omega)
      rw [hp] at hslot
      obtain ⟨h₁, r, hrun, hmerged, hframe⟩ := merge_slot hcmp hslot hlist
        (hl.sublist hsuffix.sublist)
      obtain ⟨h', list', hrest, hslot', hlist'⟩ := ih (h := h₁) (fun k hk hk' =>
        (hslots k (by omega) hk').congr fun c hc =>
          hframe c (not_mem_stacked hl.nodup (Nat.lt_succ_of_le hk') hk hc)) hmerged hl
      refine ⟨h', list', ?_, hslot', hlist'⟩
      rw [Heap.collect, hp]
      dsimp only
      rw [hrun]
      exact hrest

end Distribute

/-! ## Restoring the back links -/

/-- The back pointers along a list that comes after the node `t`. -/
def BackLinked (prev : ι → Option ι) : ι → List ι → Prop
  | _, [] => True
  | t, c :: l => prev c = some t ∧ BackLinked prev c l

lemma BackLinked.linkedTo {prev : ι → Option ι} {l : List ι} (hb : BackLinked prev t l) :
    LinkedTo prev (l.getLast?.or (some t)) l.reverse (some t) := by
  induction l generalizing t with
  | nil => rfl
  | cons c l ih =>
    rw [reverse_cons]
    refine linkedTo_append.mpr ⟨some c, ?_, rfl, hb.1⟩
    have := ih hb.2
    cases l with
    | nil => exact this
    | cons d l => rwa [getLast?_cons_cons] at *

/-- The nodes `zs` come after `tail`, and the list is closed. -/
structure Closed (h : Heap ι) (head tail : ι) (zs : List ι) (h' : Heap ι) : Prop where
  next : LinkedTo h'.next (h'.next tail) zs (some head)
  prev : BackLinked h'.prev tail zs
  last : h'.prev head = zs.getLast?
  next_frame : ∀ c, c ∉ zs → c ≠ tail → h'.next c = h.next c
  prev_frame : ∀ c, c ∉ zs → c ≠ head → h'.prev c = h.prev c

section Restore

variable [DecidableEq ι]

lemma Closed.cons {s : ι} (hne : zs ≠ [])
    (hclosed : Closed ((h.setNext t (some s)).setPrev s (some t)) head s zs h')
    (ht : t ∉ s :: zs) (hs : s ∉ zs) (hhead : s ≠ head) : Closed h head t (s :: zs) h' := by
  obtain ⟨hts, htz⟩ : t ≠ s ∧ t ∉ zs := by simpa using ht
  refine ⟨⟨?_, hclosed.next⟩, ⟨?_, hclosed.prev⟩, ?_, fun c hc hct => ?_, fun c hc hch => ?_⟩
  · rw [hclosed.next_frame t htz hts]
    exact update_self ..
  · rw [hclosed.prev_frame s hs hhead]
    exact update_self ..
  · obtain ⟨z, zs, rfl⟩ := exists_cons_of_ne_nil hne
    rw [hclosed.last, getLast?_cons_cons]
  · obtain ⟨hcs, hcz⟩ : c ≠ s ∧ c ∉ zs := by simpa using hc
    rw [hclosed.next_frame c hcz hcs]
    exact update_of_ne hct _ _
  · obtain ⟨hcs, hcz⟩ : c ≠ s ∧ c ∉ zs := by simpa using hc
    rw [hclosed.prev_frame c hcz hch]
    exact update_of_ne hcs _ _

lemma linked_setNext (t : ι) (q : Option ι) (hz : Linked h.next p zs) (ht : t ∉ zs) :
    Linked (h.setNext t q).next p zs :=
  hz.congr fun _ hc => update_of_ne (ne_of_mem_of_not_mem hc ht) _ _

lemma restoreLoop_closed (hne : zs ≠ []) (hz : Linked h.next (h.next t) zs)
    (ht : t ∉ zs) (hhead : head ∉ zs) (hfuel : zs.length ≤ fuel) :
    ∃ h', Heap.restoreLoop head fuel h t = some h' ∧ Closed h head t zs h' := by
  induction zs generalizing h t fuel with
  | nil => exact absurd rfl hne
  | cons s zs ih =>
    obtain ⟨fuel, rfl⟩ := Nat.exists_eq_succ_of_ne_zero
      (Nat.ne_zero_of_lt (Nat.lt_of_lt_of_le (Nat.succ_pos _) hfuel))
    obtain ⟨hts, htz⟩ : t ≠ s ∧ t ∉ zs := by simpa using ht
    obtain ⟨hhs, hhz⟩ : head ≠ s ∧ head ∉ zs := by simpa using hhead
    obtain ⟨hsz, -⟩ := nodup_cons.mp hz.nodup
    obtain ⟨hnext, hz⟩ := hz
    rw [Heap.restoreLoop, hnext]
    dsimp only [bind, Option.bind, Heap.setPrev]
    cases zs with
    | nil =>
      rw [hz.head]
      refine ⟨_, rfl, ⟨?_, ?_⟩, ⟨?_, trivial⟩, ?_, fun c hc hct => ?_, fun c hc hch => ?_⟩
      · exact (update_of_ne hts _ _).trans hnext
      · exact update_self ..
      · exact (update_of_ne (Ne.symm hhs) _ _).trans (update_self ..)
      · exact update_self ..
      · exact update_of_ne (by simpa using hc) _ _
      · exact (update_of_ne hch _ _).trans (update_of_ne (by simpa using hc) _ _)
    | cons u zs =>
      rw [hz.head]
      obtain ⟨h', hrun, hclosed⟩ := ih (h := h.setPrev s (some t)) (by simp) hz hsz hhz
        (Nat.le_of_succ_le_succ hfuel)
      have hsame : h.setNext t (some s) = h := by rw [Heap.setNext, ← hnext, update_eq_self]
      exact ⟨h', hrun, .cons (by simp) (by rwa [hsame]) ht hsz (Ne.symm hhs)⟩

lemma restoreLoop_rest (hne : zs ≠ []) (hz : Linked h.next q zs) (ht : t ∉ zs)
    (hhead : head ∉ zs) (hfuel : zs.length ≤ fuel) :
    ∃ h', Heap.restoreLoop head fuel (h.setNext t q) t = some h' ∧ Closed h head t zs h' := by
  have hz' : Linked (h.setNext t q).next ((h.setNext t q).next t) zs := by
    rw [show (h.setNext t q).next t = q from update_self ..]
    exact linked_setNext t q hz ht
  obtain ⟨h', hrun, hclosed⟩ := restoreLoop_closed hne hz' ht hhead hfuel
  refine ⟨h', hrun, { hclosed with next_frame := fun c hc hct => ?_ }⟩
  exact (hclosed.next_frame c hc hct).trans (update_of_ne hct _ _)

lemma mergeAndRestore_closed (cmp : ι → ι → Int) {n : Nat} (hx : Linked h.next a xs)
    (hy : Linked h.next b ys) (hne : xs ++ ys ≠ []) (hfuel : (xs ++ ys).length ≤ fuel)
    (hn : (xs ++ ys).length ≤ n) (hnd : (xs ++ ys).Nodup) (ht : t ∉ xs ++ ys)
    (hhead : head ∉ xs ++ ys) :
    ∃ h', h.mergeAndRestoreBackLinks cmp head fuel n t a b = some h' ∧
      Closed h head t (mergeBy cmp xs ys) h' := by
  obtain ⟨n, rfl⟩ := Nat.exists_eq_succ_of_ne_zero (Nat.ne_zero_of_lt
    (Nat.lt_of_lt_of_le (length_pos_iff.mpr hne) hn))
  induction xs, ys using mergeBy_induction cmp generalizing h a b t n with
  | left ys =>
    rw [hx.head, mergeBy_nil_left]
    have hrun : h.mergeAndRestoreBackLinks cmp head fuel (n + 1) t none b =
        Heap.restoreLoop head fuel (h.setNext t b) t := by
      cases b <;> rfl
    exact hrun ▸ restoreLoop_rest hne hy ht hhead hfuel
  | right x xs =>
    rw [hy.head, mergeBy_nil_right]
    rw [append_nil] at hne hfuel ht hhead
    have hrun : h.mergeAndRestoreBackLinks cmp head fuel (n + 1) t a none =
        Heap.restoreLoop head fuel (h.setNext t a) t := by
      cases a <;> rfl
    exact hrun ▸ restoreLoop_rest hne hx ht hhead hfuel
  | le x xs y ys hle ih =>
    have hx' := linked_setNext t (some x) hx (by grind)
    have hy' := linked_setNext t (some x) hy (by grind)
    obtain ⟨rfl, -⟩ := hx
    obtain ⟨rfl, -⟩ := hy
    obtain ⟨hxnd, hnd⟩ := nodup_cons.mp hnd
    simp only [length_cons, length_append] at hfuel hn
    obtain _ | n := n
    · omega
    obtain ⟨h', hrun, hclosed⟩ := ih (h := (h.setNext t (some x)).setPrev x (some t)) hx'.2 hy'
      (by simp) (by simp; omega) hnd hxnd (by grind) n (by simp; omega)
    refine ⟨h', by rwa [Heap.mergeAndRestoreBackLinks, if_pos hle], ?_⟩
    rw [mergeBy_cons_le hle]
    refine .cons ?_ hclosed (by grind [mem_mergeBy]) (by grind [mem_mergeBy]) (by grind)
    exact ne_nil_of_mem (mem_mergeBy.mpr (.inr (mem_cons_self ..)))
  | not_le x xs y ys hle ih =>
    have hx' := linked_setNext t (some y) hx (by grind)
    have hy' := linked_setNext t (some y) hy (by grind)
    obtain ⟨rfl, -⟩ := hx
    obtain ⟨rfl, -⟩ := hy
    obtain ⟨hynd, hnd⟩ := nodup_middle.mp hnd |> nodup_cons.mp
    simp only [length_cons, length_append] at hfuel hn
    obtain _ | n := n
    · omega
    obtain ⟨h', hrun, hclosed⟩ := ih (h := (h.setNext t (some y)).setPrev y (some t)) hx' hy'.2
      (by simp) (by simp; omega) hnd hynd (by grind) n (by simp; omega)
    refine ⟨h', by rwa [Heap.mergeAndRestoreBackLinks, if_neg hle], ?_⟩
    rw [mergeBy_cons_not_le hle]
    refine .cons ?_ hclosed (by grind [mem_mergeBy]) (by grind [mem_mergeBy]) (by grind)
    exact ne_nil_of_mem (mem_mergeBy.mpr (.inl (mem_cons_self ..)))

end Restore

/-- A circular doubly linked list with the items `l`. -/
structure Circular (h : Heap ι) (head : ι) (l : List ι) : Prop where
  nodup : (head :: l).Nodup
  next : LinkedTo h.next (h.next head) l (some head)
  prev : LinkedTo h.prev (h.prev head) l.reverse (some head)

/-- `list_sort` sorts a circular list stably. -/
theorem listSort_stable [DecidableEq ι] (cmp : ι → ι → Int) (h : Heap ι) (head : ι) (l : List ι)
    (hlist : Circular h head l) (hcmp : PreorderOn (· ∈ l) cmp) (fuel : Nat)
    (hfuel : l.length < fuel) :
    ∃ h' l', h.listSort cmp fuel head = some h' ∧ Circular h' head l' ∧ l'.Perm l ∧
      (l'.Pairwise fun a b => cmp a b ≤ 0) ∧
      ∀ a b, cmp a b = 0 → [a, b].Sublist l → [a, b].Sublist l' := by
  obtain ⟨hhead, hnd⟩ := nodup_cons.mp hlist.nodup
  rcases eq_nil_or_concat l with rfl | ⟨l₀, last, rfl⟩
  · refine ⟨h, [], if_pos hlist.next, hlist, .refl _, .nil, fun _ _ _ hsub => hsub⟩
  · rw [concat_eq_append] at *
    -- The last node of the list gets a null pointer.
    have hlast : h.prev head = some last := by
      have := hlist.prev
      rw [reverse_append] at this
      exact this.1
    have hcut : Linked (h.setNext last none).next ((h.setNext last none).next head)
        (l₀ ++ [last]) := by
      have hne : head ≠ last := by grind
      rw [show (h.setNext last none).next head = h.next head from update_of_ne hne _ _]
      exact linkedTo_none.mp (hlist.next.update (by grind))
    have hnotEmpty : h.next head ≠ some head := by
      intro heq
      have hfirst := hlist.next
      obtain ⟨x, rest, hx⟩ := exists_cons_of_ne_nil (show l₀ ++ [last] ≠ [] by simp)
      simp_all
    have hstart : Distributed cmp (h.setNext last none) (fun _ => none) 0 (fun _ => []) [] :=
      ⟨fun _ => ⟨[], rfl, .nil⟩, fun _ _ => rfl, by decide, stacked_empty fun _ _ => rfl⟩
    have hl : Sortable (· ∈ l₀ ++ [last]) fuel (l₀ ++ [last]) := ⟨fun _ hc => hc, hfuel, hnd⟩
    obtain ⟨h₁, part, maxLev, segs, hrun₁, hd⟩ := distribute_spec hcmp hstart hcut hfuel hl
    have hall : stacked segs (0 + maxLev + 1) = l₀ ++ [last] := by
      rw [Nat.zero_add, ← stacked_of_le hd.maxLev_lt fun k hk _ => hd.above k hk, hd.stacked_eq,
        nil_append]
    have hnone : Slot cmp h₁ none (stacked segs 0) := ⟨[], rfl, .nil⟩
    have hslots : ∀ k, 0 ≤ k → k ≤ 0 + maxLev → Slot cmp h₁ (part k) (segs k) := fun k _ _ =>
      hd.slots k
    obtain ⟨h₂, list, hrun₂, ⟨xs, hx, hxs⟩, ⟨ys, hy, hys⟩⟩ := collect_spec hcmp hslots hnone
      (by rwa [hall])
    rw [Nat.zero_add] at hx hxs hys hall
    have hstable := hxs.merge hcmp (fun c hc => hall ▸ mem_append_left _ hc)
      (fun c hc => hall ▸ mem_append_right _ hc) hys
    rw [show segs maxLev ++ stacked segs maxLev = l₀ ++ [last] from hall] at hstable
    have hperm : (xs ++ ys).Perm (l₀ ++ [last]) := mergeBy_perm.symm.trans hstable.perm
    have hmem : ∀ c, c ∈ xs ++ ys ↔ c ∈ l₀ ++ [last] := fun c => hperm.mem_iff
    have hlen := hperm.length_eq
    have hle : (xs ++ ys).length ≤ fuel := by omega
    have hout : head ∉ xs ++ ys := by rwa [hmem]
    obtain ⟨h₃, hrun₃, hclosed⟩ := mergeAndRestore_closed cmp hx hy
      (fun heq => by simp [heq] at hlen) hle hle (hperm.nodup_iff.mpr hnd) hout hout
    refine ⟨h₃, mergeBy cmp xs ys, ?_, ⟨?_, hclosed.next, ?_⟩, hstable.perm, hstable.sorted,
      fun a b hab hsub => hstable.stable a b hsub (by omega)⟩
    · rw [Heap.listSort, if_neg hnotEmpty, hlast]
      dsimp only [bind, Option.bind]
      rw [hrun₁]
      dsimp only
      rw [hrun₂]
      exact hrun₃
    · exact (hstable.perm.cons head).nodup_iff.mpr hlist.nodup
    · have hback := hclosed.prev.linkedTo
      have hsome : (mergeBy cmp xs ys).getLast? ≠ none := fun heq => by
        have := hstable.perm.length_eq
        rw [getLast?_eq_none_iff] at heq
        simp [heq] at this
      obtain ⟨z, hz⟩ := Option.ne_none_iff_exists'.mp hsome
      rw [hclosed.last]
      rwa [hz] at hback ⊢

/-- The nodes 1, 2 and 3 in a ring with the head 0. -/
def threeNodes : Heap (Fin 4) where
  next i := some (i + 1)
  prev i := some (i - 1)

/-- The first node comes after the other two, which are equal. -/
def compareFirst (a b : Fin 4) : Int := (if a = 1 then 1 else 0) - (if b = 1 then 1 else 0)

theorem threeNodes_sorted : ∃ h' l', threeNodes.listSort compareFirst 4 0 = some h' ∧
    Circular h' 0 l' ∧ l'.Perm [1, 2, 3] ∧ (l'.Pairwise fun a b => compareFirst a b ≤ 0) ∧
    [2, 3].Sublist l' := by
  have hlist : Circular threeNodes 0 [1, 2, 3] :=
    ⟨by decide, ⟨rfl, rfl, rfl, rfl⟩, rfl, rfl, rfl, rfl⟩
  have hcmp : PreorderOn (· ∈ [1, 2, 3]) compareFirst := by
    constructor <;> intros <;> simp only [compareFirst] at * <;> omega
  obtain ⟨h', l', hrun, hring, hperm, hsorted, hstable⟩ :=
    listSort_stable compareFirst threeNodes 0 [1, 2, 3] hlist hcmp 4 (by decide)
  exact ⟨h', l', hrun, hring, hperm, hsorted, hstable 2 3 (by decide) (by decide)⟩

end Mini2440.Sort
