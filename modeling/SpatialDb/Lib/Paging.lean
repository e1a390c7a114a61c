import Mathlib

/-!
# Paging through a filtered list

A reader goes through a list, keeps the elements that pass a test, and gives
up at the first element past the end of a range.  A page ends when it has its
number of elements.  Its cursor is the number of elements visited so far, kept
or not; a page that ends because the list or the range does has no cursor.

The next page skips as many elements as the cursor says, so the pages put
together are what one reader without a bound finds.
-/

namespace SpatialDb.Lib.Paging

open List Bool

variable {α : Type*}

/-- What a reader finds: the elements before `stop` that pass `keep`. -/
def found (stop keep : α → Bool) (l : List α) : List α :=
  (l.takeWhile fun a => !stop a).filter keep

/-- The elements of one page, the number of elements visited, and whether the
page is full. -/
structure PageRead (α : Type*) where
  items : List α
  visited : Nat
  full : Bool

/-- Fill a page with at most `room` elements. -/
def readPage (stop keep : α → Bool) : Nat → List α → PageRead α
  | _, [] => ⟨[], 0, false⟩
  | room, a :: l =>
    if stop a then ⟨[], 1, false⟩
    else if keep a then
      if room = 1 then ⟨[a], 1, true⟩
      else
        let r := readPage stop keep (room - 1) l
        ⟨a :: r.items, r.visited + 1, r.full⟩
    else
      let r := readPage stop keep room l
      ⟨r.items, r.visited + 1, r.full⟩

section Page

variable {stop keep : α → Bool}

theorem found_cons_of_stop {a : α} (h : stop a = true) (l : List α) :
    found stop keep (a :: l) = [] := by
  simp [found, h]

theorem found_cons {a : α} (h : stop a = false) (l : List α) :
    found stop keep (a :: l) =
      if keep a then a :: found stop keep l else found stop keep l := by
  simp only [found, takeWhile_cons, h, Bool.not_false, if_true, filter_cons]

/-- What is true of one page: if it is not full it has everything there is; if it
is, it has its number of elements, and the rest is what the reader finds after
the elements visited. -/
inductive Reads (stop keep : α → Bool) (room : Nat) (l : List α) : PageRead α → Prop
  | short {items : List α} {visited : Nat} : items = found stop keep l → items.length < room →
      Reads stop keep room l ⟨items, visited, false⟩
  | full {items : List α} {visited : Nat} : items.length = room → 1 ≤ visited →
      visited ≤ l.length → found stop keep l = items ++ found stop keep (l.drop visited) →
      Reads stop keep room l ⟨items, visited, true⟩

variable (stop keep) in
theorem readPage_reads {room : Nat} (hroom : 1 ≤ room) (l : List α) :
    Reads stop keep room l (readPage stop keep room l) := by
  induction l generalizing room with
  | nil => exact .short rfl hroom
  | cons a l ih =>
    rw [readPage]
    cases hstop : stop a with
    | true => exact .short (found_cons_of_stop hstop l).symm hroom
    | false =>
      cases hkeep : keep a with
      | false =>
        have hfound : found stop keep (a :: l) = found stop keep l := by
          rw [found_cons hstop, hkeep, if_neg Bool.false_ne_true]
        simp only [false_eq_true, if_false]
        have hreads := ih hroom
        generalize readPage stop keep room l = r at hreads ⊢
        cases hreads with
        | short hitems hlen => exact .short (hitems.trans hfound.symm) hlen
        | full hlen _ hle hrest =>
          exact .full hlen (Nat.le_add_left 1 _) (Nat.succ_le_succ hle) (hfound.trans hrest)
      | true =>
        have hfound : found stop keep (a :: l) = a :: found stop keep l := by
          rw [found_cons hstop, hkeep, if_pos rfl]
        simp only [false_eq_true, if_false, if_true]
        split
        case isTrue hone => exact .full hone.symm le_rfl (Nat.le_add_left 1 _) hfound
        case isFalse hone =>
          have hreads := ih (show 1 ≤ room - 1 by omega)
          generalize readPage stop keep (room - 1) l = r at hreads ⊢
          cases hreads with
          | short hitems hlen =>
            refine .short ?_ (Nat.add_lt_of_lt_sub hlen)
            rw [hfound, hitems]
          | full hlen _ hle hrest =>
            refine .full ?_ (Nat.le_add_left 1 _) (Nat.succ_le_succ hle) ?_
            · rw [length_cons, hlen]
              omega
            · rw [hfound, hrest]
              rfl

/-- The elements of a page are the first that the reader finds. -/
theorem readPage_items {room : Nat} (hroom : 1 ≤ room) (l : List α) :
    (readPage stop keep room l).items = (found stop keep l).take room := by
  have hreads := readPage_reads stop keep hroom l
  generalize readPage stop keep room l = r at hreads ⊢
  cases hreads with
  | short hitems hlen => rw [← hitems, take_of_length_le hlen.le]
  | full hlen _ _ hrest => rw [hrest, take_left' hlen]

end Page

/-! ## Page after page -/

/-- A page, with the cursor of the next one or zero. -/
structure Page (α : Type*) where
  items : List α
  cursor : Nat
  deriving DecidableEq

/-- The page that starts after the first `cursor` elements. -/
def pageAt (stop keep : α → Bool) (n : Nat) (l : List α) (cursor : Nat) : Page α :=
  let r := readPage stop keep n (l.drop cursor)
  ⟨r.items, if r.full then cursor + r.visited else 0⟩

/-- Ask for pages from `cursor` on until one comes without a cursor; nothing if
`fuel` pages were not enough. -/
def askPages {ε : Type*} (page : Nat → Except ε (Page α)) :
    Nat → Nat → Except ε (Option (List (Page α)))
  | 0, _ => .ok none
  | fuel + 1, cursor =>
    match page cursor with
    | .error e => .error e
    | .ok p =>
      if p.cursor = 0 then .ok (some [p])
      else
        match askPages page fuel p.cursor with
        | .error e => .error e
        | .ok rest => .ok (rest.map (p :: ·))

variable {ε : Type*} {stop keep : α → Bool} {l : List α} {n : Nat}

theorem askPages_spec {page : Nat → Except ε (Page α)} (hn : 1 ≤ n)
    (hpage : ∀ cursor, page cursor = .ok (pageAt stop keep n l cursor)) {fuel cursor : Nat}
    (hfuel : l.length - cursor < fuel) :
    ∃ pages, askPages page fuel cursor = .ok (some pages) ∧
      (∀ p ∈ pages, p.cursor ≠ 0 → p.items.length = n) ∧
      pages.flatMap Page.items = found stop keep (l.drop cursor) := by
  induction fuel generalizing cursor with
  | zero => exact absurd hfuel (Nat.not_lt_zero _)
  | succ fuel ih =>
    rw [askPages, hpage, pageAt]
    have hreads := readPage_reads stop keep hn (l.drop cursor)
    generalize readPage stop keep n (l.drop cursor) = r at hreads ⊢
    cases hreads with
    | short hitems _ =>
      refine ⟨[_], if_pos rfl, ?_, (flatMap_singleton _ _).trans hitems⟩
      intro p hp hne
      rw [mem_singleton.mp hp] at hne
      exact absurd rfl hne
    | @full items visited hlen hpos hle hrest =>
      rw [length_drop] at hle
      obtain ⟨pages, hask, hfull, hflat⟩ := ih (show l.length - (cursor + visited) < fuel by omega)
      refine ⟨⟨items, cursor + visited⟩ :: pages, ?_, ?_, ?_⟩
      · simp only [if_true, hask, if_neg (show cursor + visited ≠ 0 by omega)]
        rfl
      · intro p hp hne
        rcases mem_cons.mp hp with rfl | hp
        · exact hlen
        · exact hfull p hp hne
      · rw [flatMap_cons, hflat, hrest, drop_drop]

/-- The pages together are what one page with room for everything has. -/
theorem askPages_eq_page {page : Nat → Nat → Except ε (Page α)}
    (hpage : ∀ n, 1 ≤ n → ∀ cursor, page n cursor = .ok (pageAt stop keep n l cursor))
    (hn : 1 ≤ n) {size m : Nat} (hsize : l.length ≤ size) (hm : size < m) :
    ∃ pages all, askPages (page n) (size + 1) 0 = .ok (some pages) ∧ page m 0 = .ok all ∧
      (∀ p ∈ pages, p.cursor ≠ 0 → p.items.length = n) ∧
      pages.flatMap Page.items = all.items ∧ all.cursor = 0 ∧ all.items.Sublist l := by
  obtain ⟨pages, hask, hfull, hflat⟩ := askPages_spec hn (hpage n hn)
    (show l.length - 0 < size + 1 from Nat.lt_succ_of_le hsize)
  have hroom : 1 ≤ m := by omega
  have hsub : (found stop keep l).Sublist l := filter_sublist.trans (takeWhile_sublist _)
  refine ⟨pages, _, hask, hpage m hroom 0, hfull, ?_⟩
  rw [hflat, pageAt, drop_zero]
  have hreads := readPage_reads stop keep hroom l
  generalize readPage stop keep m l = r at hreads ⊢
  cases hreads with
  | short hitems _ => exact ⟨hitems.symm, rfl, hitems ▸ hsub⟩
  | full hlen _ _ hrest =>
    have hle := hsub.length_le
    rw [hrest, length_append] at hle
    omega

end SpatialDb.Lib.Paging
