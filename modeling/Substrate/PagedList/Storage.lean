import Mathlib
import Substrate.Lib.Unsigned

/-! # Paged storage lists

`StoragePagedList` of `src/frame/paged-list/src/paged_list.rs`: pages of at most
`ValuesPerNewPage` values and a meta record of the first and last page. Draining stores the meta
after each value and deletes each page it finishes. `PageIndex` and `ValueIndex` are `u32` with
saturating increments.
-/

namespace Substrate.PagedList

open Unsigned

def saturatingInc (n : Nat) : Nat := saturatingAdd 32 n 1

structure StoragePagedListMeta where
  firstPage : Nat
  firstValueOffset : Nat
  lastPage : Nat
  lastPageLen : Nat
  deriving DecidableEq, Repr

/-- The derived `Default`: all zero. -/
instance : Inhabited StoragePagedListMeta := ⟨⟨0, 0, 0, 0⟩⟩

/-- The storage of one list: the meta key and the page keys, with what they hold decoded. -/
structure Storage (V : Type) where
  listMeta : Option StoragePagedListMeta
  pages : Nat → Option (List V)

variable {V : Type}

def Storage.empty : Storage V := ⟨none, fun _ => none⟩

@[simp] theorem Storage.empty_listMeta : (Storage.empty : Storage V).listMeta = none := rfl

@[simp] theorem Storage.empty_pages : (Storage.empty : Storage V).pages = fun _ => none := rfl

/-- `sp_io::storage::append` of a value to a page: the page's vector gets it at the end, and a
missing page starts as the empty vector. -/
def Storage.append (index : Nat) (item : V) (s : Storage V) : Storage V :=
  { s with pages := Function.update s.pages index (some ((s.pages index).getD [] ++ [item])) }

def deletePage (index : Nat) (s : Storage V) : Storage V :=
  { s with pages := Function.update s.pages index none }

namespace StoragePagedListMeta

def fromStorage (s : Storage V) : Option StoragePagedListMeta := s.listMeta

def store (self : StoragePagedListMeta) (s : Storage V) : Storage V := { s with listMeta := some self }

def delete (s : Storage V) : Storage V := { s with listMeta := none }

def reset (s : Storage V) : StoragePagedListMeta × Storage V := (default, delete s)

def appendOne (valuesPerNewPage : Nat) (self : StoragePagedListMeta) (item : V) (s : Storage V) :
    StoragePagedListMeta × Storage V :=
  -- `>=` in case `ValuesPerNewPage` was decreased
  let self := if self.lastPageLen ≥ valuesPerNewPage then
      { self with lastPage := saturatingInc self.lastPage, lastPageLen := 0 }
    else self
  let self := { self with lastPageLen := saturatingInc self.lastPageLen }
  let s := s.append self.lastPage item
  (self, self.store s)

def appendMany (valuesPerNewPage : Nat) (self : StoragePagedListMeta) (items : List V)
    (s : Storage V) : StoragePagedListMeta × Storage V :=
  items.foldl (fun (acc : StoragePagedListMeta × Storage V) item =>
    appendOne valuesPerNewPage acc.1 item acc.2) (self, s)

@[simp] theorem store_listMeta (self : StoragePagedListMeta) (s : Storage V) :
    (self.store s).listMeta = some self := rfl

@[simp] theorem store_pages (self : StoragePagedListMeta) (s : Storage V) :
    (self.store s).pages = s.pages := rfl

@[simp] theorem delete_listMeta (s : Storage V) : (delete s).listMeta = none := rfl

@[simp] theorem delete_pages (s : Storage V) : (delete s).pages = s.pages := rfl

theorem appendOne_of_le {valuesPerNewPage : Nat} {self : StoragePagedListMeta} (item : V)
    (s : Storage V) (hfull : valuesPerNewPage ≤ self.lastPageLen) :
    let self' := { self with lastPage := saturatingInc self.lastPage, lastPageLen := saturatingInc 0 }
    appendOne valuesPerNewPage self item s = (self', self'.store (s.append self'.lastPage item)) := by
  simp [appendOne, hfull]

theorem appendOne_of_lt {valuesPerNewPage : Nat} {self : StoragePagedListMeta} (item : V)
    (s : Storage V) (hroom : self.lastPageLen < valuesPerNewPage) :
    let self' := { self with lastPageLen := saturatingInc self.lastPageLen }
    appendOne valuesPerNewPage self item s = (self', self'.store (s.append self.lastPage item)) := by
  simp [appendOne, Nat.not_le.mpr hroom]

theorem appendMany_cons (valuesPerNewPage : Nat) (self : StoragePagedListMeta) (item : V)
    (items : List V) (s : Storage V) :
    appendMany valuesPerNewPage self (item :: items) s =
      appendMany valuesPerNewPage (appendOne valuesPerNewPage self item s).1 items
        (appendOne valuesPerNewPage self item s).2 := rfl

end StoragePagedListMeta

@[simp] theorem Storage.append_listMeta (index : Nat) (item : V) (s : Storage V) :
    (s.append index item).listMeta = s.listMeta := rfl

@[simp] theorem deletePage_listMeta (index : Nat) (s : Storage V) :
    (deletePage index s).listMeta = s.listMeta := rfl

/-- `Page`: the index of a page and its values still to come. -/
structure Page (V : Type) where
  index : Nat
  values : List V
  deriving DecidableEq, Repr

namespace Page

/-- `Page::from_storage`: the page's values from `value_index` on, and nothing for a missing or
empty page. -/
def fromStorage (s : Storage V) (index valueIndex : Nat) : Option (Page V) :=
  match s.pages index with
  | none => none
  | some values =>
      -- don't create empty pages
      if values.isEmpty then none
      else some ⟨index, values.drop valueIndex⟩

theorem fromStorage_of_some {s : Storage V} {index : Nat} {values : List V}
    (hpage : s.pages index = some values) (hne : values ≠ []) (valueIndex : Nat) :
    fromStorage s index valueIndex = some ⟨index, values.drop valueIndex⟩ := by
  simp [fromStorage, hpage, hne]

theorem fromStorage_of_none {s : Storage V} {index : Nat} (hpage : s.pages index = none)
    (valueIndex : Nat) : fromStorage s index valueIndex = none := by
  simp [fromStorage, hpage]

def isEof (self : Page V) : Bool := self.values.length == 0

def delete (self : Page V) (s : Storage V) : Storage V := deletePage self.index s

end Page

/-- `StoragePagedListIterator`; `listMeta` is the field `meta`. -/
structure StoragePagedListIterator (V : Type) where
  page : Option (Page V)
  drain : Bool
  listMeta : StoragePagedListMeta
  deriving DecidableEq, Repr

namespace StoragePagedListIterator

def fromMeta (s : Storage V) (listMeta : StoragePagedListMeta) (drain : Bool) :
    StoragePagedListIterator V :=
  ⟨Page.fromStorage s listMeta.firstPage listMeta.firstValueOffset, drain, listMeta⟩

/-- `Iterator::next` of `StoragePagedListIterator`: the value, the iterator after it, and the
storage a drain leaves. -/
def next (self : StoragePagedListIterator V) (s : Storage V) :
    Option V × StoragePagedListIterator V × Storage V :=
  match self.page with
  | none => (none, self, s)
  | some page =>
      match page.values with
      | [] =>
          -- `defensive!`: there are no empty pages in storage; nuking the list
          let (listMeta, s) := StoragePagedListMeta.reset s
          (none, { self with listMeta := listMeta, page := none }, s)
      | value :: rest =>
          let page : Page V := { page with values := rest }
          if page.isEof then
            let (listMeta, s) := if self.drain then
                ({ self.listMeta with
                    firstValueOffset := 0, firstPage := saturatingInc self.listMeta.firstPage },
                  page.delete s)
              else (self.listMeta, s)
            let next := Page.fromStorage s (saturatingAdd 32 page.index 1) 0
            let (listMeta, s) := if self.drain then
                if next.isNone then StoragePagedListMeta.reset s else (listMeta, listMeta.store s)
              else (listMeta, s)
            (some value, ⟨next, self.drain, listMeta⟩, s)
          else
            let (listMeta, s) := if self.drain then
                let listMeta := { self.listMeta with
                  firstValueOffset := saturatingInc self.listMeta.firstValueOffset }
                (listMeta, listMeta.store s)
              else (self.listMeta, s)
            (some value, ⟨some page, self.drain, listMeta⟩, s)

/-! ### The cases of `next` -/

section Next

variable {index : Nat} {value : V} {rest : List V} {listMeta : StoragePagedListMeta}
  {s : Storage V}

theorem next_iter_of_ne_nil (hrest : rest ≠ []) :
    next ⟨some ⟨index, value :: rest⟩, false, listMeta⟩ s =
      (some value, ⟨some ⟨index, rest⟩, false, listMeta⟩, s) := by
  simp [next, Page.isEof, hrest]

theorem next_iter_last :
    next ⟨some ⟨index, [value]⟩, false, listMeta⟩ s =
      (some value, ⟨Page.fromStorage s (saturatingAdd 32 index 1) 0, false, listMeta⟩, s) := by
  simp [next, Page.isEof]

theorem next_drain_of_ne_nil (hrest : rest ≠ []) :
    let listMeta' := { listMeta with firstValueOffset := saturatingInc listMeta.firstValueOffset }
    next ⟨some ⟨index, value :: rest⟩, true, listMeta⟩ s =
      (some value, ⟨some ⟨index, rest⟩, true, listMeta'⟩, listMeta'.store s) := by
  simp [next, Page.isEof, hrest]

/-- The last value of the last page: the page is deleted and the meta reset. -/
theorem next_drain_last_of_none
    (hnext : Page.fromStorage (deletePage index s) (saturatingAdd 32 index 1) 0 = none) :
    next ⟨some ⟨index, [value]⟩, true, listMeta⟩ s =
      (some value, ⟨none, true, default⟩, StoragePagedListMeta.delete (deletePage index s)) := by
  simp [next, Page.isEof, Page.delete, hnext, StoragePagedListMeta.reset]

/-- The last value of a page before another: the page is deleted and the meta moved to the next
one. -/
theorem next_drain_last_of_some {page : Page V}
    (hnext : Page.fromStorage (deletePage index s) (saturatingAdd 32 index 1) 0 = some page) :
    let listMeta' :=
      { listMeta with firstValueOffset := 0, firstPage := saturatingInc listMeta.firstPage }
    next ⟨some ⟨index, [value]⟩, true, listMeta⟩ s =
      (some value, ⟨some page, true, listMeta'⟩, listMeta'.store (deletePage index s)) := by
  simp [next, Page.isEof, Page.delete, hnext]

end Next

/-- `collect` on at most `fuel` calls of `next`: the values up to the first `None`, or nothing
where the fuel runs out first. -/
def collect : Nat → StoragePagedListIterator V → Storage V → Option (List V) × Storage V
  | 0, _, s => (none, s)
  | fuel + 1, it, s =>
      match next it s with
      | (none, _, s) => (some [], s)
      | (some value, it, s) =>
          let rest := collect fuel it s
          (rest.1.map (value :: ·), rest.2)

/-- `take(count)`, collected, and the iterator dropped: `next` until it gives `None`, `count`
times at most. -/
def take : Nat → StoragePagedListIterator V → Storage V → List V × Storage V
  | 0, _, s => ([], s)
  | count + 1, it, s =>
      match next it s with
      | (none, _, s) => ([], s)
      | (some value, it, s) =>
          let rest := take count it s
          (value :: rest.1, rest.2)

end StoragePagedListIterator

namespace StoragePagedList

open StoragePagedListMeta StoragePagedListIterator

def readMeta (s : Storage V) : StoragePagedListMeta := (fromStorage s).getD default

@[simp] theorem readMeta_empty : readMeta (Storage.empty : Storage V) = default := rfl

@[simp] theorem readMeta_some (m : StoragePagedListMeta) (pages : Nat → Option (List V)) :
    readMeta ⟨some m, pages⟩ = m := rfl

def iter (s : Storage V) : StoragePagedListIterator V := fromMeta s (readMeta s) false

def drain (s : Storage V) : StoragePagedListIterator V := fromMeta s (readMeta s) true

theorem drain_store (m : StoragePagedListMeta) (s : Storage V) :
    drain (m.store s) = fromMeta s m true := rfl

def appender (s : Storage V) : StoragePagedListMeta := readMeta s

def appendMany (valuesPerNewPage : Nat) (items : List V) (s : Storage V) : Storage V :=
  (StoragePagedListMeta.appendMany valuesPerNewPage (appender s) items s).2

variable (valuesPerNewPage : Nat)

theorem readMeta_appendOne (self : StoragePagedListMeta) (item : V)
    (s : Storage V) :
    readMeta (StoragePagedListMeta.appendOne valuesPerNewPage self item s).2 =
      (StoragePagedListMeta.appendOne valuesPerNewPage self item s).1 := rfl

@[simp] theorem appendMany_nil (s : Storage V) :
    appendMany valuesPerNewPage [] s = s := rfl

theorem appendMany_cons (item : V) (items : List V) (s : Storage V) :
    appendMany valuesPerNewPage (item :: items) s =
      appendMany valuesPerNewPage items
        (StoragePagedListMeta.appendOne valuesPerNewPage (readMeta s) item s).2 := by
  rw [appendMany, appendMany, appender, appender, StoragePagedListMeta.appendMany_cons,
    readMeta_appendOne]

theorem appendMany_append :
    ∀ (items items' : List V) (s : Storage V),
      appendMany valuesPerNewPage (items ++ items') s =
        appendMany valuesPerNewPage items' (appendMany valuesPerNewPage items s)
  | [], _, _ => rfl
  | item :: items, items', s => by
    rw [List.cons_append, appendMany_cons, appendMany_cons, appendMany_append]

def appendOne (valuesPerNewPage : Nat) (item : V) (s : Storage V) : Storage V :=
  appendMany valuesPerNewPage [item] s

end StoragePagedList

/-- What a user does with a list: append values, with the `ValuesPerNewPage` of the runtime at
that time, or drain `count` values and drop the iterator. -/
inductive Op (V : Type)
  | append (valuesPerNewPage : Nat) (items : List V)
  | drain (count : Nat)
  deriving DecidableEq, Repr

namespace Op

open StoragePagedList StoragePagedListIterator

def run : Op V → Storage V → List V × Storage V
  | .append valuesPerNewPage items, s => ([], appendMany valuesPerNewPage items s)
  | .drain count, s => take count (StoragePagedList.drain s) s

end Op

def runOps : List (Op V) → Storage V → List (List V) × Storage V
  | [], s => ([], s)
  | op :: ops, s =>
      let r := op.run s
      let rest := runOps ops r.2
      (r.1 :: rest.1, rest.2)

example : (runOps [.append 2 [1, 2, 3], .drain 1] Storage.empty).1 = [[], [1]] := by decide

end Substrate.PagedList
