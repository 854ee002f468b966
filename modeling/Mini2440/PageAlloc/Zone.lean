import Mini2440.Library.Dyadic

/-!
# The buddy allocator

`__free_one_page`, `expand` and `__rmqueue_smallest` of `mm/page_alloc.c`, for one zone and one
migrate type. A page is its page frame number. A zone has, for each order below `MAX_ORDER`, the
list of the free blocks of that order by their first pages, and the number of them; a page's
structure has the flag `PageBuddy` and, in `private`, the order of the free block it heads.

`MAX_ORDER` is a parameter, as it is a configuration option; the model compares orders by
addition, which is what the source's differences mean for a `MAX_ORDER` of two or more. Guard
pages, compound pages and the `VM_BUG_ON` checks are left out.
-/

namespace Mini2440.PageAlloc

open Function Library

/-- What does not change while the zone is in use: `MAX_ORDER`, `pfn_valid_within` and
`page_zone_id`. The last two are also asked for pages of other zones and for holes. -/
structure Layout (κ : Type*) where
  maxOrder : Nat
  pfnValidWithin : Nat → Bool
  pageZoneId : Nat → κ

structure Zone where
  freeList : Nat → List Nat
  nrFree : Nat → Nat
  pageBuddy : Nat → Bool
  pagePrivate : Nat → Nat

variable {κ : Type*}

namespace Zone

def setList (z : Zone) (order : Nat) (l : List Nat) : Zone :=
  { z with freeList := update z.freeList order l }

def listAdd (z : Zone) (page order : Nat) : Zone := z.setList order (page :: z.freeList order)

def listAddTail (z : Zone) (page order : Nat) : Zone :=
  z.setList order (z.freeList order ++ [page])

/-- The page is unlinked from the list that it is on, whichever that is. -/
def listDel (z : Zone) (page : Nat) : Zone :=
  { z with freeList := fun order => (z.freeList order).erase page }

def incNrFree (z : Zone) (order : Nat) : Zone :=
  { z with nrFree := update z.nrFree order (z.nrFree order + 1) }

def decNrFree (z : Zone) (order : Nat) : Zone :=
  { z with nrFree := update z.nrFree order (z.nrFree order - 1) }

def setPageOrder (z : Zone) (page order : Nat) : Zone :=
  { z with
    pagePrivate := update z.pagePrivate page order
    pageBuddy := update z.pageBuddy page true }

def rmvPageOrder (z : Zone) (page : Nat) : Zone :=
  { z with
    pageBuddy := update z.pageBuddy page false
    pagePrivate := update z.pagePrivate page 0 }

end Zone

def findBuddyIndex (pageIdx order : Nat) : Nat := pageIdx ^^^ 1 <<< order

/-! ## Freeing -/

section Free

variable [DecidableEq κ]

def pageIsBuddy (L : Layout κ) (z : Zone) (page buddy order : Nat) : Bool :=
  L.pfnValidWithin buddy && decide (L.pageZoneId page = L.pageZoneId buddy) &&
    (z.pageBuddy buddy && z.pagePrivate buddy == order)

/-- The variables of `__free_one_page` that its loop changes. -/
structure Cursor where
  page : Nat
  pageIdx : Nat
  order : Nat

/-- The `buddy` of the loop. It is `page + (buddy_idx - page_idx)`, and `page_idx` is not above
`page`. -/
def Cursor.buddy (c : Cursor) : Nat := c.page + findBuddyIndex c.pageIdx c.order - c.pageIdx

/-- The page and the index of the block that `page` and `buddy` make up together. -/
def Cursor.combined (c : Cursor) : Cursor :=
  let combinedIdx := findBuddyIndex c.pageIdx c.order &&& c.pageIdx
  ⟨c.page + combinedIdx - c.pageIdx, combinedIdx, c.order + 1⟩

/-- The loop that takes free buddies out of their lists. It is called with
`MAX_ORDER - 1 - order` for the number of rounds, so that it ends where the condition
`order < MAX_ORDER - 1` fails. -/
def mergeLoop (L : Layout κ) : Nat → Zone → Cursor → Zone × Cursor
  | 0, z, c => (z, c)
  | n + 1, z, c =>
    if pageIsBuddy L z c.page c.buddy c.order then
      mergeLoop L n (((z.listDel c.buddy).decNrFree c.order).rmvPageOrder c.buddy) c.combined
    else (z, c)

/-- Whether the buddy of the next order is free, for which the block is put at the list's tail.
The `buddy` of the test is the one that the loop broke off at: where it ran to its end instead,
the order is too high for the test. -/
def higherIsFree (L : Layout κ) (z : Zone) (c : Cursor) : Bool :=
  decide (c.order + 2 < L.maxOrder) && L.pfnValidWithin c.buddy &&
    pageIsBuddy L z c.combined.page c.combined.buddy c.combined.order

def linkBlock (L : Layout κ) (z : Zone) (c : Cursor) : Zone :=
  let z := z.setPageOrder c.page c.order
  let z := if higherIsFree L z c then z.listAddTail c.page c.order else z.listAdd c.page c.order
  z.incNrFree c.order

def freeOnePage (L : Layout κ) (z : Zone) (page order : Nat) : Zone :=
  let pageIdx := page &&& (1 <<< L.maxOrder - 1)
  let r := mergeLoop L (L.maxOrder - 1 - order) z ⟨page, pageIdx, order⟩
  linkBlock L r.1 r.2

end Free

/-! ## Allocating -/

/-- The recursion is on `high`; `size` is `1 << high` after each round's shift. -/
def expand (z : Zone) (page low : Nat) : Nat → Zone
  | 0 => z
  | high + 1 =>
    if low < high + 1 then
      let half := page + 1 <<< high
      expand (((z.listAdd half high).incNrFree high).setPageOrder half high) page low high
    else z

/-- The rounds that are left of the loop over the orders from `currentOrder` on. -/
def rmqueueLoop (z : Zone) (order : Nat) : Nat → Nat → Option Nat × Zone
  | 0, _ => (none, z)
  | n + 1, currentOrder =>
    match z.freeList currentOrder with
    | [] => rmqueueLoop z order n (currentOrder + 1)
    | page :: _ =>
      (some page,
        expand (((z.listDel page).rmvPageOrder page).decNrFree currentOrder) page order
          currentOrder)

def rmqueueSmallest (L : Layout κ) (z : Zone) (order : Nat) : Option Nat × Zone :=
  rmqueueLoop z order (L.maxOrder - order) order

/-! ## The two changes of the lists

All of the functions above either take a block out or put one in. The steps of that come in
different orders in the source; what they amount to is the same.
-/

namespace Zone

variable (z : Zone) (page order o : Nat) (l : List Nat)

def remove : Zone := ((z.listDel page).decNrFree order).rmvPageOrder page

/-- Put in the block of the order that the page heads; `l` is the new list. -/
def insert : Zone := ((z.setPageOrder page order).setList order l).incNrFree order

@[simp] lemma remove_freeList : (z.remove page order).freeList o = (z.freeList o).erase page :=
  rfl

@[simp] lemma remove_nrFree :
    (z.remove page order).nrFree = update z.nrFree order (z.nrFree order - 1) := rfl

@[simp] lemma remove_pageBuddy :
    (z.remove page order).pageBuddy = update z.pageBuddy page false := rfl

@[simp] lemma remove_pagePrivate :
    (z.remove page order).pagePrivate = update z.pagePrivate page 0 := rfl

@[simp] lemma insert_nrFree :
    (z.insert page order l).nrFree = update z.nrFree order (z.nrFree order + 1) := rfl

@[simp] lemma insert_pageBuddy :
    (z.insert page order l).pageBuddy = update z.pageBuddy page true := rfl

@[simp] lemma insert_pagePrivate :
    (z.insert page order l).pagePrivate = update z.pagePrivate page order := rfl

end Zone

lemma expand_succ (z : Zone) (page : Nat) {low high : Nat} (h : low ≤ high) :
    expand z page low (high + 1) =
      expand (z.insert (page + 2 ^ high) high ((page + 2 ^ high) :: z.freeList high)) page low
        high := by
  rw [expand, if_pos (by omega), Nat.one_shiftLeft]
  rfl

lemma expand_self (z : Zone) (page order : Nat) : expand z page order order = z := by
  cases order with
  | zero => rfl
  | succ order => rw [expand, if_neg (lt_irrefl _)]

lemma linkBlock_eq [DecidableEq κ] (L : Layout κ) (z : Zone) (c : Cursor) :
    ∃ l : List Nat, l.Perm (c.page :: z.freeList c.order) ∧
      linkBlock L z c = z.insert c.page c.order l := by
  rw [linkBlock]
  by_cases h : higherIsFree L (z.setPageOrder c.page c.order) c
  · exact ⟨z.freeList c.order ++ [c.page], List.perm_append_singleton _ _, by rw [if_pos h]; rfl⟩
  · exact ⟨c.page :: z.freeList c.order, List.Perm.refl _, by rw [if_neg h]; rfl⟩

end Mini2440.PageAlloc
