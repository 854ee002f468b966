import Mini2440.Sort.Heapsort

/-!
# The array is sorted

Both swap functions exchange two elements of the array, and the counters are multiples of the size
of an element, so every step of the code is one on the list of elements. The first loop makes it a
heap, from its end to its beginning. In the second loop the array is a heap followed by the elements
that were taken out of it, which are in order and not less than those of the heap.
-/

namespace Mini2440.Sort

open List BitVec Library

/-! ## The swap functions -/

/-- The `n` bytes at `a` and at `b` are exchanged. -/
structure Exchanges (bytes : List Byte) (a b n : Nat) (bytes' : List Byte) : Prop where
  length_eq : bytes'.length = bytes.length
  getElem?_eq : ∀ q, bytes'[q]? = if a ≤ q ∧ q < a + n then bytes[b + (q - a)]?
    else if b ≤ q ∧ q < b + n then bytes[a + (q - b)]? else bytes[q]?

lemma Exchanges.eq_encode {n : Nat} {xs : List (Element n)} {k l : Nat} {bytes' : List Byte}
    (hn : 0 < n) (hk : k < xs.length) (hl : l < xs.length)
    (h : Exchanges (encode xs) (k * n) (l * n) n bytes') : bytes' = encode (swapAt xs k l) := by
  refine ext_getElem? fun q => ?_
  have hdiv : ∀ i, (i * n ≤ q ∧ q < i * n + n) ↔ q / n = i := fun i => by
    rw [Nat.div_eq_iff hn]
    constructor <;> intro h <;> constructor <;> omega
  have hq : q / n * n + q % n = q := Nat.div_add_mod' q n
  have hj : q % n < n := Nat.mod_lt _ hn
  have hat : ∀ i i', q / n = i → i' * n + (q - i * n) = i' * n + q % n := fun i i' hi => by
    subst hi
    omega
  rw [h.getElem?_eq, if_congr (hdiv k) rfl rfl, if_congr (hdiv l) rfl rfl]
  conv_rhs => rw [← hq, getElem?_encode hj, getElem?_swapAt hk hl]
  split
  · next hi => rw [hat k l hi, getElem?_encode hj]
  · split
    · next hi => rw [hat l k hi, getElem?_encode hj]
    · rw [← getElem?_encode hj, hq]

section Swap

variable {bytes : List Byte} {a b : Word}

lemma load_eq (h : a.toNat < bytes.length) : load bytes a = .ok bytes[a.toNat] := by
  simp [load, h]

/-- Two areas of `n` bytes in an array of less than 2 GiB that do not meet. -/
structure Apart (bytes : List Byte) (a b n : Nat) : Prop where
  pos : 0 < n
  small : bytes.length < 2 ^ 31
  left : a + n ≤ bytes.length
  right : b + n ≤ bytes.length
  apart : a + n ≤ b ∨ b + n ≤ a

lemma swapLoop_exchanges (n : Nat) {size : Word} (hsize : size.toNat = n)
    (h : Apart bytes a.toNat b.toNat n) :
    ∃ bytes', swapLoop n bytes a b size = .ok bytes' ∧
      Exchanges bytes a.toNat b.toNat n bytes' := by
  obtain ⟨hpos, hsmall, hleft, hright, hapart⟩ := h
  induction n generalizing bytes a b size with
  | zero => omega
  | succ n ih =>
    have hsub : (size - 1).toNat = n := by bv_omega
    have htest : 0 < (size - 1).toInt ↔ 0 < n := by
      rw [toInt_eq_toNat_of_lt (by omega)]
      omega
    have ha : (a + 1).toNat = a.toNat + 1 := by bv_omega
    have hb : (b + 1).toNat = b.toNat + 1 := by bv_omega
    have hla : a.toNat < bytes.length := by omega
    have hlb : b.toNat < bytes.length := by omega
    have hrun : swapLoop (n + 1) bytes a b size = if 0 < (size - 1).toInt then
        swapLoop n (swapAt bytes a.toNat b.toNat) (a + 1) (b + 1) (size - 1)
        else .ok (swapAt bytes a.toNat b.toNat) := by
      simp only [swapLoop, load_eq hla, load_eq hlb, store, length_set, hla, hlb, if_true,
        swapAt_of_lt hla hlb, bind, Except.bind]
    have hone := getElem?_swapAt hla hlb
    rw [hrun]
    by_cases hn : 0 < n
    · rw [if_pos (htest.mpr hn)]
      obtain ⟨bytes', hrest, hlen, hget⟩ := @ih (swapAt bytes a.toNat b.toNat) (a + 1) (b + 1)
        (size - 1) hsub hn (by rw [length_swapAt]; omega)
        (by rw [length_swapAt]; omega) (by rw [length_swapAt]; omega) (by omega)
      refine ⟨bytes', hrest, hlen.trans length_swapAt, fun q => ?_⟩
      rw [hget]
      simp only [hone]
      split_ifs <;> first | omega | exact congrArg (bytes[·]?) (by omega)
    · rw [if_neg (mt htest.mp hn)]
      refine ⟨_, rfl, length_swapAt, fun q => ?_⟩
      rw [hone]
      split_ifs <;> first | omega | exact congrArg (bytes[·]?) (by omega)

lemma overwrite_eq (bytes : List Byte) (a : Word) (new : List Byte)
    (h : a.toNat + new.length ≤ bytes.length) :
    ∃ bytes', overwrite bytes a new = .ok bytes' ∧ bytes'.length = bytes.length ∧
      ∀ q, bytes'[q]? = if a.toNat ≤ q ∧ q < a.toNat + new.length then new[q - a.toNat]?
        else bytes[q]? := by
  refine ⟨_, if_pos h, by simp; omega, fun q => ?_⟩
  have htake : (bytes.take a.toNat).length = a.toNat := by
    rw [length_take]
    omega
  rw [List.append_assoc, List.getElem?_append, List.getElem?_append, List.getElem?_drop, htake]
  split_ifs <;> first | omega | rfl | skip
  · rw [getElem?_take_of_lt (by omega)]
  · exact congrArg (bytes[·]?) (by omega)

lemma u32Swap_exchanges (h : Apart bytes a.toNat b.toNat 4) :
    ∃ bytes', u32Swap bytes a b 4 = .ok bytes' ∧ Exchanges bytes a.toNat b.toNat 4 bytes' := by
  obtain ⟨-, hsmall, hleft, hright, hapart⟩ := h
  have hlen : ∀ p : Nat, p + 4 ≤ bytes.length → ((bytes.drop p).take 4).length = 4 := fun p hp => by
    simp
    omega
  have hword : ∀ p : Nat, p + 4 ≤ bytes.length →
      leBytes 4 (leWord ((bytes.drop p).take 4)) = (bytes.drop p).take 4 := fun p hp => by
    have := leBytes_leWord ((bytes.drop p).take 4) (Nat.le_of_eq (hlen p hp))
    rwa [hlen p hp] at this
  obtain ⟨bytes₁, hrun₁, hlen₁, hget₁⟩ := overwrite_eq bytes a
    ((bytes.drop b.toNat).take 4) (by rw [hlen _ hright]; exact hleft)
  obtain ⟨bytes₂, hrun₂, hlen₂, hget₂⟩ := overwrite_eq bytes₁ b
    ((bytes.drop a.toNat).take 4) (by rw [hlen _ hleft, hlen₁]; exact hright)
  rw [hlen _ hright] at hget₁
  rw [hlen _ hleft] at hget₂
  refine ⟨bytes₂, ?_, hlen₂.trans hlen₁, fun q => ?_⟩
  · have hfour : (4 : Word).toNat = 4 := rfl
    simp only [u32Swap, element, hfour, hleft, hright, if_true, bind, Except.bind, hword, hrun₁]
    exact hrun₂
  · rw [hget₂, hget₁]
    split_ifs <;> first | omega | rfl | skip
    · rw [getElem?_take_of_lt (by omega), getElem?_drop]
    · rw [getElem?_take_of_lt (by omega), getElem?_drop]

end Swap

/-- What `sort` needs of its swap function. -/
def SwapsElements (swap : List Byte → Word → Word → Word → Except Fault (List Byte))
    (size : Word) : Prop :=
  ∀ (xs : List (Element size.toNat)) (k l : Nat) (a b : Word), k ≠ l → k < xs.length →
    l < xs.length → xs.length * size.toNat < 2 ^ 30 → a.toNat = k * size.toNat →
    b.toNat = l * size.toNat → swap (encode xs) a b size = .ok (encode (swapAt xs k l))

lemma apart_encode {n k l : Nat} (hn : 0 < n) (xs : List (Element n)) (hkl : k ≠ l)
    (hk : k < xs.length) (hl : l < xs.length) (hsmall : xs.length * n < 2 ^ 30) :
    Apart (encode xs) (k * n) (l * n) n := by
  have hmul : ∀ i j, i < j → i * n + n ≤ j * n := fun i j hij => by
    rw [← Nat.succ_mul]
    exact Nat.mul_le_mul_right n hij
  have := hmul k _ hk
  have := hmul l _ hl
  refine ⟨hn, ?_, ?_, ?_, ?_⟩
  · rw [length_encode]
    omega
  · rwa [length_encode]
  · rwa [length_encode]
  · rcases Nat.lt_or_gt_of_ne hkl with h | h
    · exact .inl (hmul k l h)
    · exact .inr (hmul l k h)

lemma swapsElements_default {size : Word} (hsize : 0 < size.toNat) :
    SwapsElements (if size = 4 then u32Swap else genericSwap) size := by
  intro xs k l a b hkl hk hl hsmall ha hb
  have hapart := apart_encode hsize xs hkl hk hl hsmall
  rw [← ha, ← hb] at hapart
  suffices ∃ bytes', (if size = 4 then u32Swap else genericSwap) (encode xs) a b size =
      .ok bytes' ∧ Exchanges (encode xs) a.toNat b.toNat size.toNat bytes' by
    obtain ⟨bytes', hrun, hex⟩ := this
    rw [ha, hb] at hex
    rw [hrun, hex.eq_encode hsize hk hl]
  split
  · next heq =>
    subst heq
    exact u32Swap_exchanges hapart
  · exact swapLoop_exchanges size.toNat rfl hapart

/-! ## The inner loop -/

section Loops

variable {cmp : List Byte → List Byte → Int} {size : Word}
  {swap : List Byte → Word → Word → Word → Except Fault (List Byte)} {p q : Word} {k l : Nat}

def compareElements (cmp : List Byte → List Byte → Int) (n : Nat) (x y : Element n) : Int :=
  cmp x.val y.val

lemma element_encode {xs : List (Element size.toNat)} (hk : k < xs.length)
    (hp : p.toNat = k * size.toNat) : element (encode xs) p size = .ok xs[k].val := by
  have hle : k * size.toNat + size.toNat ≤ xs.length * size.toNat := by
    rw [← Nat.succ_mul]
    exact Nat.mul_le_mul_right _ hk
  rw [element, if_pos (by rw [length_encode, hp]; exact hle), hp, take_drop_encode hk]

lemma compareAt_encode {ys zs : List (Element size.toNat)} (hk : k < ys.length)
    (hl : l < ys.length) (hp : p.toNat = k * size.toNat)
    (hq : q.toNat = l * size.toNat) : compareAt cmp (encode (ys ++ zs)) size p q =
      .ok (compareElements cmp size.toNat ys[k] ys[l]) := by
  have hle := (sublist_append_left ys zs).length_le
  rw [compareAt, element_encode (Nat.lt_of_lt_of_le hk hle) hp,
    element_encode (Nat.lt_of_lt_of_le hl hle) hq, getElem_append_left hk,
    getElem_append_left hl]
  rfl

lemma mul_lt_iff (hsize : 0 < size.toNat) (hp : p.toNat = k * size.toNat)
    (hq : q.toNat = l * size.toNat) : p < q ↔ k < l := by
  rw [lt_def, hp, hq]
  exact Nat.mul_lt_mul_right hsize

lemma toNat_add_size (hp : p.toNat = k * size.toNat)
    (hsmall : (k + 1) * size.toNat < 2 ^ 32) : (p + size).toNat = (k + 1) * size.toNat := by
  rw [Nat.succ_mul] at hsmall ⊢
  rw [toNat_add, hp, Nat.mod_eq_of_lt hsmall]

lemma toNat_sub_size (hp : p.toNat = (k + 1) * size.toNat) : (p - size).toNat = k * size.toNat := by
  rw [toNat_sub, hp, Nat.succ_mul]
  have := p.isLt
  rw [hp, Nat.succ_mul] at this
  omega

lemma toNat_left (hp : p.toNat = k * size.toNat) (hsmall : (2 * k + 1) * size.toNat < 2 ^ 32) :
    (p * 2 + size).toNat = (2 * k + 1) * size.toNat := by
  have htwo : (p * 2).toNat = 2 * k * size.toNat := by
    rw [Nat.succ_mul] at hsmall
    rw [toNat_mul, hp]
    have : k * size.toNat * (2 : Word).toNat = 2 * k * size.toNat := by
      rw [Nat.mul_right_comm, Nat.mul_comm k]
      rfl
    rw [this, Nat.mod_eq_of_lt (by omega)]
  exact toNat_add_size htwo hsmall

variable {ys zs : List (Element size.toNat)} {bound : Word} {lo : Nat}

lemma child_small (hsmall : (ys ++ zs).length * size.toNat < 2 ^ 30) {j : Nat}
    (hj : j ≤ ys.length) : j * size.toNat < 2 ^ 30 := by
  have : j * size.toNat ≤ (ys ++ zs).length * size.toNat :=
    Nat.mul_le_mul_right _ (by rw [length_append]; omega)
  omega

lemma toInt_neg (hsize : 0 < size.toNat) (hle : size.toNat ≤ 2 ^ 31) (hp : p.toNat = 0) :
    (p - size).toInt < 0 := by
  rw [toInt_neg_iff, toNat_sub]
  omega

lemma toInt_of_small (hp : p.toNat < 2 ^ 30) : p.toInt = p.toNat :=
  toInt_eq_toNat_of_lt (by omega)

variable (hcmp : TotalPreorder (compareElements cmp size.toNat)) (hsize : 0 < size.toNat)

include hcmp hsize

lemma greaterChild_spec (hsmall : (ys ++ zs).length * size.toNat < 2 ^ 30)
    (hbound : bound.toNat = ys.length * size.toNat) (hk : 2 * k + 1 < ys.length) {c : Word}
    (hc : c.toNat = (2 * k + 1) * size.toNat) :
    ∃ c' j, greaterChild cmp size bound (encode (ys ++ zs)) c = .ok c' ∧
      c'.toNat = j * size.toNat ∧ j < ys.length ∧
      GreatestChild (compareElements cmp size.toNat) ys j k := by
  obtain ⟨m, hm⟩ := Nat.exists_eq_succ_of_ne_zero (Nat.ne_zero_of_lt hk)
  have hrest : (bound - size).toNat = m * size.toNat := toNat_sub_size (by rw [hbound, hm])
  rw [greaterChild, if_congr (mul_lt_iff hsize hc hrest) rfl rfl]
  split
  · next hright =>
    have hnext := toNat_add_size hc (Nat.lt_trans (child_small hsmall (by omega)) (by decide))
    rw [compareAt_encode hk (by omega) hc hnext]
    by_cases hneg : compareElements cmp size.toNat ys[2 * k + 1] ys[2 * k + 2] < 0
    · exact ⟨c + size, 2 * k + 2, congrArg Except.ok (if_pos hneg), hnext, by omega,
        greatestChild_right hcmp (by omega) hneg⟩
    · exact ⟨c, 2 * k + 1, congrArg Except.ok (if_neg hneg), hc, by omega,
        greatestChild_left hcmp (by omega) (Int.not_lt.mp hneg)⟩
  · next hright => exact ⟨c, 2 * k + 1, rfl, hc, hk, greatestChild_only hcmp (by omega)⟩

variable (hswap : SwapsElements swap size) {i : Word}

include hswap

lemma siftDown_spec (ys zs : List (Element size.toNat))
    (hsmall : (ys ++ zs).length * size.toNat < 2 ^ 30)
    (hbound : bound.toNat = ys.length * size.toNat) (fuel : Nat) {r : Word}
    (hr : r.toNat = k * size.toNat) (hk : k < ys.length) (hlo : lo ≤ k)
    (hfuel : ys.length ≤ k + fuel) (hsink : Sinking (compareElements cmp size.toNat) lo k ys) :
    ∃ ys', siftDown cmp swap size bound fuel (encode (ys ++ zs)) r = .ok (encode (ys' ++ zs)) ∧
      ys'.Perm ys ∧ HeapFrom (compareElements cmp size.toNat) lo ys' := by
  induction fuel generalizing ys k r with
  | zero => omega
  | succ fuel ih =>
    have hleft : (r * 2 + size).toNat = (2 * k + 1) * size.toNat := by
      have := child_small hsmall (Nat.le_of_lt hk)
      have := child_small hsmall (Nat.one_le_of_lt hk)
      refine toNat_left hr ?_
      rw [Nat.succ_mul, Nat.mul_assoc]
      omega
    rw [siftDown, if_congr (mul_lt_iff hsize hleft hbound) rfl rfl]
    by_cases hchild : 2 * k + 1 < ys.length
    · rw [if_pos hchild]
      obtain ⟨c, j, hrun, hc, hj, hgreatest⟩ :=
        greaterChild_spec hcmp hsize hsmall hbound hchild hleft
      have hkj : k < j := by
        have := hgreatest.child
        unfold IsChild at this
        omega
      rw [hrun]
      dsimp only [bind, Except.bind]
      rw [compareAt_encode hk hj hr hc]
      dsimp only
      split
      · next hstop =>
        exact ⟨ys, rfl, .refl ys, hsink.stop hcmp hgreatest hk hj ((hcmp.nonneg_iff _ _).mp hstop)⟩
      · next hgo =>
        rw [hswap (ys ++ zs) k j r c (Nat.ne_of_lt hkj) (by simp; omega) (by simp; omega) hsmall hr
          hc, swapAt_append_left hk hj]
        obtain ⟨ys', hrest, hperm, hheap⟩ := ih (swapAt ys k j)
          (by rwa [length_append, length_swapAt, ← length_append])
          (by rwa [length_swapAt]) hc (by rwa [length_swapAt]) (by omega)
          (by rw [length_swapAt]; omega) (hsink.swap hgreatest hlo hk hj (by omega))
        exact ⟨ys', hrest, hperm.trans (swapAt_perm hk hj), hheap⟩
    · rw [if_neg hchild]
      exact ⟨ys, rfl, .refl ys, hsink.leaf (Nat.le_of_not_lt hchild)⟩

/-! ## The two phases -/

/-- The first loop: `lo` is the number of nodes that are not yet in heap order. -/
lemma heapify_spec (ys : List (Element size.toNat)) (rounds : Nat) (hle : size.toNat ≤ 2 ^ 31)
    (hsmall : ys.length * size.toNat < 2 ^ 30) (hbound : bound.toNat = ys.length * size.toNat)
    (hrounds : ys.length ≤ rounds) (fuel : Nat) (hfuel : lo < fuel)
    (hlo : lo ≤ ys.length) (hi : (i + size).toNat = lo * size.toNat)
    (hheap : HeapFrom (compareElements cmp size.toNat) lo ys) :
    ∃ ys', heapify cmp swap size bound rounds fuel (encode ys) i = .ok (encode ys') ∧
      ys'.Perm ys ∧ HeapFrom (compareElements cmp size.toNat) 0 ys' := by
  have hback : i = i + size - size := by bv_omega
  induction lo generalizing ys i fuel with
  | zero =>
    obtain _ | fuel := fuel
    · omega
    have hneg : i.toInt < 0 := by
      rw [hback]
      exact toInt_neg hsize hle (by rw [hi, Nat.zero_mul])
    rw [heapify, if_neg (by omega)]
    exact ⟨ys, rfl, .refl ys, hheap⟩
  | succ lo ih =>
    obtain _ | fuel := fuel
    · omega
    have hi' : i.toNat = lo * size.toNat := by
      rw [hback]
      exact toNat_sub_size hi
    have hsmall' : (ys ++ []).length * size.toNat < 2 ^ 30 := by rwa [append_nil]
    have hpos : 0 ≤ i.toInt := by
      rw [toInt_of_small (by rw [hi']; exact child_small hsmall' (by omega))]
      omega
    obtain ⟨ys₁, hrun, hperm, hheap₁⟩ := siftDown_spec hcmp hsize hswap ys [] hsmall' hbound
      rounds hi' (by omega) (Nat.le_refl lo) (by omega) hheap.sinking
    rw [append_nil, append_nil] at hrun
    obtain ⟨ys', hrest, hperm', hheap'⟩ := ih ys₁ (i := i - size)
      (by rwa [hperm.length_eq]) (by rwa [hperm.length_eq]) (by rwa [hperm.length_eq]) fuel
      (by omega) (by rw [hperm.length_eq]; omega)
      (by rw [BitVec.sub_add_cancel, hi']) hheap₁ (BitVec.add_sub_cancel _ _).symm
    refine ⟨ys', ?_, hperm'.trans hperm, hheap'⟩
    rw [heapify, if_pos hpos, hrun]
    exact hrest

structure Extracted (cmp : List Byte → List Byte → Int) (n : Nat) (ys zs : List (Element n)) :
    Prop where
  heap : HeapFrom (compareElements cmp n) 0 ys
  sorted : zs.Pairwise fun x y => compareElements cmp n x y ≤ 0
  le : ∀ y ∈ ys, ∀ z ∈ zs, compareElements cmp n y z ≤ 0

omit hcmp hsize hswap in
lemma Extracted.all_sorted (h : Extracted cmp size.toNat ys zs) (hlen : ys.length ≤ 1) :
    (ys ++ zs).Pairwise fun x y => compareElements cmp size.toNat x y ≤ 0 := by
  refine pairwise_append.mpr ⟨?_, h.sorted, h.le⟩
  match ys, hlen with
  | [], _ => exact .nil
  | [y], _ => exact pairwise_singleton _ y

omit hsize hswap in
lemma Extracted.next {a b : Element size.toNat} {mid ys' : List (Element size.toNat)}
    (h : Extracted cmp size.toNat (a :: (mid ++ [b])) zs) (hperm : ys'.Perm (b :: mid))
    (hheap : HeapFrom (compareElements cmp size.toNat) 0 ys') :
    Extracted cmp size.toNat ys' (a :: zs) := by
  refine ⟨hheap, pairwise_cons.mpr ⟨h.le a (by simp), h.sorted⟩, fun y hy z hz => ?_⟩
  have hmem : y ∈ a :: (mid ++ [b]) := by
    have := hperm.mem_iff.mp hy
    simp only [mem_cons, mem_append] at this ⊢
    tauto
  rcases mem_cons.mp hz with rfl | hz
  · obtain ⟨i, hi⟩ := getElem?_of_mem hmem
    exact h.heap.le_head hcmp i rfl hi
  · exact h.le y hmem z hz

lemma sortLoop_spec (ys zs : List (Element size.toNat)) (rounds : Nat)
    (hle : size.toNat ≤ 2 ^ 31) (hsmall : (ys ++ zs).length * size.toNat < 2 ^ 30)
    (hrounds : ys.length ≤ rounds) (fuel : Nat) (hfuel : ys.length < fuel)
    (hi : (i + size).toNat = ys.length * size.toNat) (h : Extracted cmp size.toNat ys zs) :
    ∃ xs, sortLoop cmp swap size rounds fuel (encode (ys ++ zs)) i = .ok (encode xs) ∧
      xs.Perm (ys ++ zs) ∧ xs.Pairwise fun x y => compareElements cmp size.toNat x y ≤ 0 := by
  have hback : i = i + size - size := by bv_omega
  induction fuel generalizing ys zs i with
  | zero => omega
  | succ fuel ih =>
    rw [sortLoop]
    rcases Nat.lt_or_ge 1 ys.length with hlen | hlen
    · obtain ⟨a, rest, rfl⟩ := exists_cons_of_length_pos (Nat.zero_lt_of_lt hlen)
      obtain ⟨mid, b, rfl⟩ : ∃ mid b, rest = mid ++ [b] := by
        rw [length_cons] at hlen
        refine ⟨rest.dropLast, rest.getLast ?_, (dropLast_append_getLast _).symm⟩
        exact ne_nil_of_length_pos (by omega)
      have hcount : (a :: (mid ++ [b])).length = mid.length + 1 + 1 := by simp
      have hi' : i.toNat = (mid.length + 1) * size.toNat := by
        rw [hback]
        exact toNat_sub_size (by rw [hi, hcount])
      have hpos : 0 < i.toInt := by
        have hmul : 0 < (mid.length + 1) * size.toNat := Nat.mul_pos (Nat.succ_pos _) hsize
        rw [toInt_of_small (by rw [hi']; exact child_small hsmall (by omega))]
        omega
      rw [if_pos hpos, hswap _ 0 (mid.length + 1) 0 i (by omega) (by simp) (by simp) hsmall
        (by simp) hi', swapAt_ends]
      have hzero : (0 : Word).toNat = 0 * size.toNat := by simp
      obtain ⟨ys', hrun, hperm, hheap⟩ := siftDown_spec hcmp hsize hswap (b :: mid) (a :: zs)
        (by simpa using hsmall) hi' rounds hzero
        (Nat.succ_pos mid.length) (Nat.le_refl 0)
        (by rw [hcount] at hrounds; rw [length_cons]; omega) (h.heap.replaceHead a b mid)
      have hlen' : ys'.length = mid.length + 1 := by rw [hperm.length_eq, length_cons]
      obtain ⟨xs, hrest, hperm', hsorted⟩ := ih ys' (a :: zs) (i := i - size)
        (by simpa [hlen', Nat.add_comm, Nat.add_left_comm] using hsmall)
        (by omega) (by omega) (by rw [BitVec.sub_add_cancel, hi', hlen'])
        (.next hcmp h hperm hheap) (BitVec.add_sub_cancel _ _).symm
      refine ⟨xs, ?_, hperm'.trans ?_, hsorted⟩
      · dsimp only [bind, Except.bind]
        rw [hrun]
        exact hrest
      · refine (hperm.append_right _).trans (List.perm_iff_count.mpr fun x => ?_)
        simp only [List.count_append, List.count_cons, List.count_nil]
        omega
    · refine ⟨ys ++ zs, if_neg ?_, .refl _, h.all_sorted hlen⟩
      rcases Nat.eq_or_lt_of_le hlen with hone | hzero
      · have hi' : i.toNat = 0 * size.toNat := by
          rw [hback]
          exact toNat_sub_size (by rw [hi, hone])
        rw [toInt_of_small (by omega)]
        omega
      · have := toInt_neg hsize hle (p := i + size) (by
          rw [hi, Nat.lt_one_iff.mp hzero, Nat.zero_mul])
        rw [← hback] at this
        omega

end Loops

/-- `sort` terminates without an access out of the bounds of the array, and the elements are in
order. -/
theorem sort_sorts (cmp : List Byte → List Byte → Int) (num size : Word)
    (hcmp : TotalPreorder fun x y : Element size.toNat => cmp x.val y.val) (hsize : 1 ≤ size.toNat)
    (hle : size.toNat ≤ 2 ^ 31) (hsmall : num.toNat * size.toNat < 2 ^ 30)
    (xs : List (Element size.toNat)) (hnum : xs.length = num.toNat) :
    ∃ ys, sort cmp (encode xs) num size = .ok (encode ys) ∧ ys.Perm xs ∧
      ys.Pairwise fun x y => cmp x.val y.val ≤ 0 := by
  have hswap := swapsElements_default hsize
  have hn : (num * size).toNat = xs.length * size.toNat := by
    rw [toNat_mul, hnum, Nat.mod_eq_of_lt (by omega)]
  have hstart : ((num / 2 - 1) * size + size).toNat = num.toNat / 2 * size.toNat := by
    have hmul := succ_mul.symm.trans (congrArg (· * size) (BitVec.sub_add_cancel (num / 2) 1))
    have hhalf : (num / 2).toNat = num.toNat / 2 := by simp
    have : num.toNat / 2 * size.toNat ≤ num.toNat * size.toNat :=
      Nat.mul_le_mul_right _ (Nat.div_le_self _ _)
    rw [hmul, toNat_mul, hhalf, Nat.mod_eq_of_lt (by omega)]
  obtain ⟨ys, hrun, hperm, hheap⟩ := heapify_spec hcmp hsize hswap xs (2 ^ 32) hle
    (by rwa [hnum]) hn (by omega) (2 ^ 32) (by omega) (by omega) hstart (.of_leaves (by omega))
  obtain ⟨zs, hrun', hperm', hsorted⟩ := sortLoop_spec hcmp hsize hswap ys []
    (i := num * size - size) (2 ^ 32) hle (by rwa [append_nil, hperm.length_eq, hnum])
    (by rw [hperm.length_eq]; omega) (2 ^ 32) (by rw [hperm.length_eq]; omega)
    (by rw [BitVec.sub_add_cancel, hn, hperm.length_eq]) ⟨hheap, .nil, by simp⟩
  rw [append_nil] at hrun' hperm'
  refine ⟨zs, ?_, hperm'.trans hperm, hsorted⟩
  rw [sort, hrun]
  exact hrun'

def compareBytes (x y : List Byte) : Int := (leWord x).toNat - (leWord y).toNat

lemma totalPreorder_compareBytes (n : Nat) :
    TotalPreorder fun x y : Element n => compareBytes x.val y.val where
  neg_iff a b := by simp only [compareBytes]; omega
  trans a b c := by simp only [compareBytes]; omega

/-- Three bytes are sorted. -/
theorem sort_three_bytes :
    ∃ ys : List (Element 1), sort compareBytes [3, 1, 2] 3 1 = .ok (encode ys) ∧
      ys.Perm [⟨[3], rfl⟩, ⟨[1], rfl⟩, ⟨[2], rfl⟩] ∧
      ys.Pairwise fun x y => compareBytes x.val y.val ≤ 0 :=
  sort_sorts compareBytes 3 1 (totalPreorder_compareBytes 1) (by decide) (by decide) (by decide)
    [⟨[3], rfl⟩, ⟨[1], rfl⟩, ⟨[2], rfl⟩] rfl

/-- Without elements, `n - size` is positive as an `int` if the size is above 2 GiB, and the code
swaps two elements of the empty array. -/
theorem sort_huge_elements :
    (0 : Word).toNat * (0x80000001 : Word).toNat < 2 ^ 30 ∧
      sort compareBytes (encode ([] : List (Element (0x80000001 : Word).toNat))) 0 0x80000001 =
        .error .access :=
  ⟨by decide, rfl⟩

end Mini2440.Sort
