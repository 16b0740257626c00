import Mathlib
import Substrate.PagedList.Storage

/-! # A paged list is a queue

`Holds bound s q`: storage `s` holds the queue `q`. Appending and draining keep it and `iter`
reads `q` back, while `last_page` stays below `u32::MAX`: once it reaches it, `saturating_inc`
leaves it there and the next page appends to the last one (`pages_max_of_replicate_succ_max`).
-/

namespace Substrate.PagedList

open Unsigned StoragePagedListMeta StoragePagedList
open StoragePagedListIterator (fromMeta next take collect next_iter_of_ne_nil next_iter_last
  next_drain_of_ne_nil next_drain_last_of_none next_drain_last_of_some)

variable {V : Type} {s : Storage V} {q p : List V} {m : StoragePagedListMeta}

/-! ## The queue -/

def Op.runQueue : Op V → List V → List V × List V
  | .append _ items, q => ([], q ++ items)
  | .drain count, q => (q.take count, q.drop count)

def runQueue : List (Op V) → List V → List (List V) × List V
  | [], q => ([], q)
  | op :: ops, q =>
      let r := op.runQueue q
      let rest := runQueue ops r.2
      (r.1 :: rest.1, rest.2)

/-! ## The pages in storage -/

/-- The pages `ps` stored from index `first` on, and no page elsewhere. -/
def layoutPages (first : Nat) (ps : List (List V)) (index : Nat) : Option (List V) :=
  if first ≤ index then ps[index - first]? else none

section Layout

variable {first : Nat} {ps : List (List V)}

@[simp] theorem layoutPages_add (first j : Nat) (ps : List (List V)) :
    layoutPages first ps (first + j) = ps[j]? := by
  simp [layoutPages]

theorem layoutPages_of_lt {index : Nat} (h : index < first) : layoutPages first ps index = none := by
  simp [layoutPages, Nat.not_le.mpr h]

theorem mem_of_layoutPages {index : Nat} (h : layoutPages first ps index = some p) :
    p ∈ ps := by
  rw [layoutPages] at h
  split at h
  · exact List.mem_of_getElem? h
  · cases h

theorem layoutPages_nil (first : Nat) : layoutPages first ([] : List (List V)) = fun _ => none := by
  funext index
  simp [layoutPages]

theorem update_layoutPages_set (first : Nat) {ps : List (List V)} {j : Nat} (hj : j < ps.length)
    (p : List V) :
    Function.update (layoutPages first ps) (first + j) (some p) = layoutPages first (ps.set j p) := by
  funext index
  rcases eq_or_ne index (first + j) with rfl | hne
  · rw [Function.update_self, layoutPages_add, List.getElem?_set_self hj]
  · rw [Function.update_of_ne hne, layoutPages, layoutPages]
    split
    · rw [List.getElem?_set_ne (by omega)]
    · rfl

theorem update_layoutPages_concat (first : Nat) (ps : List (List V)) (p : List V) :
    Function.update (layoutPages first ps) (first + ps.length) (some p) =
      layoutPages first (ps ++ [p]) := by
  funext index
  rcases eq_or_ne index (first + ps.length) with rfl | hne
  · rw [Function.update_self, layoutPages_add, List.getElem?_concat_length]
  · rw [Function.update_of_ne hne, layoutPages, layoutPages]
    split
    · rcases Nat.lt_or_ge (index - first) ps.length with hlt | hge
      · rw [List.getElem?_append_left hlt]
      · rw [List.getElem?_eq_none (by omega), List.getElem?_eq_none (by simp; omega)]
    · rfl

theorem update_layoutPages_first (p : List V) (qs : List (List V)) :
    Function.update (layoutPages first (p :: qs)) first none = layoutPages (first + 1) qs := by
  funext index
  rcases eq_or_ne index first with rfl | hne
  · rw [Function.update_self, layoutPages_of_lt (Nat.lt_succ_self _)]
  · rw [Function.update_of_ne hne, layoutPages, layoutPages]
    by_cases hlt : first + 1 ≤ index
    · rw [if_pos (by omega), if_pos hlt, show index - first = index - (first + 1) + 1 by omega,
        List.getElem?_cons_succ]
    · rw [if_neg hlt, if_neg (by omega)]

end Layout

/-- The meta and its pages `ps`: none empty or longer than `bound`, `last_page_len` values on the
last, the offset in the first, `last_page` below `u32::MAX`. -/
structure Layout (bound : Nat) (m : StoragePagedListMeta) (ps : List (List V)) : Prop where
  ne_nil : ∀ p ∈ ps, p ≠ []
  length_le : ∀ p ∈ ps, p.length ≤ bound
  lastPage_eq : m.lastPage + 1 = m.firstPage + ps.length
  lastPageLen_eq : ps.getLast?.map List.length = some m.lastPageLen
  offset_lt : m.firstValueOffset < (ps.headD []).length
  lastPage_lt : m.lastPage < maxValue 32

/-- Storage `s` holds the queue `q`. -/
inductive Holds (bound : Nat) : Storage V → List V → Prop
  | empty : Holds bound Storage.empty []
  | paged {m : StoragePagedListMeta} {ps : List (List V)} (hlayout : Layout bound m ps) :
      Holds bound ⟨some m, layoutPages m.firstPage ps⟩ (ps.flatten.drop m.firstValueOffset)

variable {bound : Nat}

theorem Holds.paged_of_eq {ps : List (List V)} (hlayout : Layout bound m ps)
    (hmeta : s.listMeta = some m) (hpages : s.pages = layoutPages m.firstPage ps)
    (hq : q = ps.flatten.drop m.firstValueOffset) : Holds bound s q := by
  obtain ⟨listMeta, pages⟩ := s
  dsimp only at hmeta hpages
  subst hmeta hpages hq
  exact .paged hlayout

theorem saturatingInc_of_lt {i : Nat} (h : i < maxValue 32) : saturatingInc i = i + 1 :=
  saturatingAdd_of_le h

theorem saturatingInc_zero : saturatingInc 0 = 1 := saturatingInc_of_lt (by rw [maxValue]; omega)

theorem length_headD_le_flatten (ps : List (List V)) : (ps.headD []).length ≤ ps.flatten.length := by
  cases ps with
  | nil => exact Nat.le_refl 0
  | cons p ps => simp

theorem drop_flatten_cons {offset : Nat} (h : offset ≤ p.length) (qs : List (List V)) :
    (p :: qs).flatten.drop offset = p.drop offset ++ qs.flatten := by
  rw [List.flatten_cons, List.drop_append_of_le_length h]

theorem store_eq_of_pages {self : StoragePagedListMeta}
    {pages : Nat → Option (List V)} (h : s.pages = pages) : self.store s = ⟨some self, pages⟩ := by
  obtain ⟨listMeta, pages⟩ := s
  dsimp only at h
  rw [h]
  rfl

section LayoutFacts

variable {bound : Nat} {m : StoragePagedListMeta} {ps : List (List V)}

theorem Layout.pages_ne_nil (hlayout : Layout bound m ps) : ps ≠ [] := by
  rintro rfl
  exact Nat.not_lt_zero _ hlayout.offset_lt

/-- The pages end before `u32::MAX`. -/
theorem Layout.firstPage_add_length_le (hlayout : Layout bound m ps) :
    m.firstPage + ps.length ≤ maxValue 32 := by
  have := hlayout.lastPage_eq
  have := hlayout.lastPage_lt
  omega

theorem Layout.offset_le_flatten (hlayout : Layout bound m ps) :
    m.firstValueOffset ≤ ps.flatten.length :=
  (Nat.le_of_lt hlayout.offset_lt).trans (length_headD_le_flatten ps)

theorem Layout.fromStorage_first {qs : List (List V)}
    (hlayout : Layout bound m (p :: qs)) (listMeta : Option StoragePagedListMeta)
    (valueIndex : Nat) :
    Page.fromStorage ⟨listMeta, layoutPages m.firstPage (p :: qs)⟩ m.firstPage valueIndex =
      some ⟨m.firstPage, p.drop valueIndex⟩ :=
  Page.fromStorage_of_some (by simpa using layoutPages_add m.firstPage 0 (p :: qs))
    (hlayout.ne_nil p List.mem_cons_self) valueIndex

end LayoutFacts

/-- Only storage without keys holds the empty queue: a stored first page has a value left. -/
theorem eq_empty_of_holds_nil (h : Holds bound s q) (hq : q = []) : s = Storage.empty := by
  cases h with
  | empty => rfl
  | @paged m ps hlayout =>
    have hlen := congrArg List.length hq
    have hhead := length_headD_le_flatten ps
    have hoff := hlayout.offset_lt
    rw [List.length_drop, List.length_nil] at hlen
    omega

theorem length_le_of_holds
    (h : Holds bound s q) {index : Nat} (hpage : s.pages index = some p) :
    p.length ≤ bound := by
  cases h with
  | empty => cases hpage
  | paged hlayout => exact hlayout.length_le p (mem_of_layoutPages hpage)

theorem Holds.lastPage_lt (h : Holds bound s q) : (readMeta s).lastPage < maxValue 32 := by
  cases h with
  | empty => rw [readMeta_empty, maxValue]; decide
  | paged hlayout => exact hlayout.lastPage_lt

/-! ## Appending -/

section Append

variable {bound valuesPerNewPage : Nat} (item : V)

theorem append_layoutPages_concat (listMeta : Option StoragePagedListMeta) (first : Nat)
    (ps : List (List V)) :
    (Storage.append (first + ps.length) item ⟨listMeta, layoutPages first ps⟩).pages =
      layoutPages first (ps ++ [[item]]) := by
  simp only [Storage.append, layoutPages_add, List.getElem?_eq_none (Nat.le_refl _),
    Option.getD_none, List.nil_append]
  exact update_layoutPages_concat first ps [item]

theorem append_layoutPages_last (listMeta : Option StoragePagedListMeta) (first : Nat)
    (init : List (List V)) (last : List V) :
    (Storage.append (first + init.length) item ⟨listMeta, layoutPages first (init ++ [last])⟩).pages =
      layoutPages first (init ++ [last ++ [item]]) := by
  have hset := update_layoutPages_set first (show init.length < (init ++ [last]).length by simp)
    (last ++ [item])
  rw [List.set_append_right _ _ (Nat.le_refl _), Nat.sub_self, List.set_cons_zero] at hset
  simp only [Storage.append, layoutPages_add, List.getElem?_concat_length, Option.getD_some]
  exact hset

theorem appendOne_empty (hpos : 0 < valuesPerNewPage) :
    (StoragePagedListMeta.appendOne valuesPerNewPage default item (Storage.empty : Storage V)).2 =
      ⟨some ⟨0, 0, 0, 1⟩, layoutPages 0 [[item]]⟩ := by
  have hpage := append_layoutPages_concat item none 0 []
  rw [layoutPages_nil, List.nil_append] at hpage
  rw [StoragePagedListMeta.appendOne_of_lt item _ hpos]
  exact store_eq_of_pages hpage

theorem appendOne_of_full {ps : List (List V)}
    (hfull : valuesPerNewPage ≤ m.lastPageLen) (hindex : m.lastPage + 1 = m.firstPage + ps.length)
    (hlast : m.lastPage < maxValue 32) :
    (StoragePagedListMeta.appendOne valuesPerNewPage m item ⟨some m, layoutPages m.firstPage ps⟩).2 =
      ⟨some { m with lastPage := m.lastPage + 1, lastPageLen := 1 },
        layoutPages m.firstPage (ps ++ [[item]])⟩ := by
  rw [StoragePagedListMeta.appendOne_of_le item _ hfull]
  dsimp only
  rw [saturatingInc_of_lt hlast, saturatingInc_zero, hindex]
  exact store_eq_of_pages (append_layoutPages_concat item _ _ _)

theorem appendOne_of_room {init : List (List V)} {last : List V}
    (hroom : m.lastPageLen < valuesPerNewPage) (hindex : m.lastPage = m.firstPage + init.length)
    (hlen : m.lastPageLen < maxValue 32) :
    (StoragePagedListMeta.appendOne valuesPerNewPage m item
        ⟨some m, layoutPages m.firstPage (init ++ [last])⟩).2 =
      ⟨some { m with lastPageLen := m.lastPageLen + 1 },
        layoutPages m.firstPage (init ++ [last ++ [item]])⟩ := by
  rw [StoragePagedListMeta.appendOne_of_lt item _ hroom]
  dsimp only
  rw [saturatingInc_of_lt hlen, hindex]
  exact store_eq_of_pages (append_layoutPages_last item _ _ _ _)

theorem layout_append_last {init : List (List V)} {last : List V}
    (hlayout : Layout bound m (init ++ [last])) (hroom : m.lastPageLen < valuesPerNewPage)
    (hle : valuesPerNewPage ≤ bound) :
    Layout bound { m with lastPageLen := m.lastPageLen + 1 } (init ++ [last ++ [item]]) := by
  have hlast : last.length = m.lastPageLen := by simpa using hlayout.lastPageLen_eq
  refine ⟨?_, ?_, ?_, ?_, ?_, ?_⟩
  · intro p hp
    rcases List.mem_append.mp hp with hp | hp
    · exact hlayout.ne_nil p (List.mem_append_left _ hp)
    · rw [List.mem_singleton.mp hp]
      simp
  · intro p hp
    rcases List.mem_append.mp hp with hp | hp
    · exact hlayout.length_le p (List.mem_append_left _ hp)
    · rw [List.mem_singleton.mp hp, List.length_append, List.length_singleton]
      omega
  · simpa using hlayout.lastPage_eq
  · simp [hlast]
  · -- the first page gains the item only where it is the last one
    have hoff := hlayout.offset_lt
    cases init with
    | nil => simp at hoff ⊢; omega
    | cons p init => simpa using hoff
  · exact hlayout.lastPage_lt

theorem layout_append_new {ps : List (List V)}
    (hlayout : Layout bound m ps) (hpos : 0 < valuesPerNewPage) (hle : valuesPerNewPage ≤ bound)
    (hnext : m.lastPage + 1 < maxValue 32) :
    Layout bound { m with lastPage := m.lastPage + 1, lastPageLen := 1 } (ps ++ [[item]]) := by
  refine ⟨?_, ?_, ?_, ?_, ?_, ?_⟩
  · intro p hp
    rcases List.mem_append.mp hp with hp | hp
    · exact hlayout.ne_nil p hp
    · simp [List.mem_singleton.mp hp]
  · intro p hp
    rcases List.mem_append.mp hp with hp | hp
    · exact hlayout.length_le p hp
    · rw [List.mem_singleton.mp hp, List.length_singleton]
      omega
  · have := hlayout.lastPage_eq
    simp only [List.length_append, List.length_singleton]
    omega
  · simp
  · obtain ⟨p, ps, rfl⟩ := List.exists_cons_of_ne_nil hlayout.pages_ne_nil
    exact hlayout.offset_lt
  · exact hnext

/-- `append_one` never lowers a `last_page` that is a `u32`, and keeps it one. -/
theorem lastPage_appendOne (self : StoragePagedListMeta) (s : Storage V)
    (h : self.lastPage ≤ maxValue 32) :
    self.lastPage ≤ (StoragePagedListMeta.appendOne valuesPerNewPage self item s).1.lastPage ∧
      (StoragePagedListMeta.appendOne valuesPerNewPage self item s).1.lastPage ≤ maxValue 32 := by
  rw [StoragePagedListMeta.appendOne]
  split <;> simp only [saturatingInc, saturatingAdd] <;> omega

theorem lastPage_le_appendMany (items : List V) :
    ∀ s : Storage V, (readMeta s).lastPage ≤ maxValue 32 →
      (readMeta s).lastPage ≤ (readMeta (appendMany valuesPerNewPage items s)).lastPage := by
  induction items with
  | nil => exact fun _ _ => Nat.le_refl _
  | cons item items ih =>
    intro s hs
    obtain ⟨hle, hmax⟩ := lastPage_appendOne item (readMeta s) s hs
    rw [← readMeta_appendOne] at hle hmax
    rw [StoragePagedList.appendMany_cons]
    exact hle.trans (ih _ hmax)

theorem holds_appendOne (h : Holds bound s q)
    (hpos : 0 < valuesPerNewPage) (hle : valuesPerNewPage ≤ bound) (hbound : bound ≤ maxValue 32)
    (hlast : (readMeta (StoragePagedListMeta.appendOne valuesPerNewPage (readMeta s) item s).2).lastPage <
      maxValue 32) :
    Holds bound (StoragePagedListMeta.appendOne valuesPerNewPage (readMeta s) item s).2
      (q ++ [item]) := by
  cases h with
  | empty =>
    rw [readMeta_empty, appendOne_empty item hpos]
    have hlayout : Layout bound ⟨0, 0, 0, 1⟩ [[item]] :=
      ⟨by simp, by simpa using Nat.succ_le_of_lt (Nat.lt_of_lt_of_le hpos hle), rfl, rfl, by simp,
        by rw [maxValue]; decide⟩
    exact Holds.paged_of_eq hlayout rfl rfl (by simp)
  | @paged m ps hlayout =>
    rw [readMeta_some] at hlast ⊢
    have hoff := hlayout.offset_le_flatten
    by_cases hfull : valuesPerNewPage ≤ m.lastPageLen
    · have hindex := hlayout.lastPage_eq
      rw [appendOne_of_full item hfull hindex hlayout.lastPage_lt] at hlast ⊢
      -- the new page is `last_page + 1`, below `u32::MAX` by the hypothesis
      refine Holds.paged_of_eq (layout_append_new item hlayout hpos hle (by simpa using hlast)) rfl
        rfl ?_
      rw [List.flatten_append, List.drop_append_of_le_length hoff]
      simp
    · have hroom := Nat.lt_of_not_le hfull
      obtain ⟨init, last, rfl⟩ := (List.eq_nil_or_concat' ps).resolve_left hlayout.pages_ne_nil
      have hindex : m.lastPage = m.firstPage + init.length := by
        have := hlayout.lastPage_eq
        simp only [List.length_append, List.length_singleton] at this
        omega
      rw [appendOne_of_room item hroom hindex (by omega)]
      refine Holds.paged_of_eq (layout_append_last item hlayout hroom hle) rfl rfl ?_
      rw [show (init ++ [last ++ [item]]).flatten = (init ++ [last]).flatten ++ [item] by simp,
        List.drop_append_of_le_length hoff]

theorem holds_appendMany (items : List V) (h : Holds bound s q)
    (hpos : 0 < valuesPerNewPage) (hle : valuesPerNewPage ≤ bound) (hbound : bound ≤ maxValue 32)
    (hlast : (readMeta (appendMany valuesPerNewPage items s)).lastPage < maxValue 32) :
    Holds bound (appendMany valuesPerNewPage items s) (q ++ items) := by
  induction items generalizing s q with
  | nil => simpa using h
  | cons item items ih =>
    rw [StoragePagedList.appendMany_cons] at hlast ⊢
    -- `last_page` only grows over the rest of the append, so the first value keeps it below too
    have hfirst : (readMeta (StoragePagedListMeta.appendOne valuesPerNewPage (readMeta s) item
        s).2).lastPage < maxValue 32 := by
      have hmax : (readMeta (StoragePagedListMeta.appendOne valuesPerNewPage (readMeta s) item
          s).2).lastPage ≤ maxValue 32 :=
        (lastPage_appendOne item (readMeta s) s h.lastPage_lt.le).2
      exact Nat.lt_of_le_of_lt (lastPage_le_appendMany items _ hmax) hlast
    rw [← List.singleton_append, ← List.append_assoc]
    exact ih (holds_appendOne item h hpos hle hbound hfirst) hlast

end Append

/-! ## Draining -/

section Drain

variable {bound : Nat}

theorem Layout.withOffset {ps : List (List V)}
    (hlayout : Layout bound m ps) {offset : Nat} (hoffset : offset < (ps.headD []).length) :
    Layout bound { m with firstValueOffset := offset } ps :=
  ⟨hlayout.ne_nil, hlayout.length_le, hlayout.lastPage_eq, hlayout.lastPageLen_eq, hoffset,
    hlayout.lastPage_lt⟩

theorem Layout.tail {p next : List V} {qs : List (List V)}
    (hlayout : Layout bound m (p :: next :: qs)) :
    Layout bound { m with firstValueOffset := 0, firstPage := m.firstPage + 1 } (next :: qs) := by
  refine ⟨fun q hq => hlayout.ne_nil q (List.mem_cons_of_mem p hq),
    fun q hq => hlayout.length_le q (List.mem_cons_of_mem p hq), ?_, ?_, ?_, hlayout.lastPage_lt⟩
  · have := hlayout.lastPage_eq
    simp only [List.length_cons] at this ⊢
    omega
  · have := hlayout.lastPageLen_eq
    rwa [List.getLast?_cons_cons] at this
  · simpa using List.length_pos_iff.mpr (hlayout.ne_nil next (by simp))

/-- The front of the queue is the value a drain gives first, and storage then holds the rest. -/
theorem next_drain_of_holds {value : V}
    (h : Holds bound s (value :: q)) (hbound : bound ≤ maxValue 32) :
    ∃ s', next (drain s) s = (some value, drain s', s') ∧ Holds bound s' q := by
  generalize hq : value :: q = queue at h
  cases h with
  | empty => cases hq
  | @paged m ps hlayout =>
    obtain ⟨p, qs, rfl⟩ := List.exists_cons_of_ne_nil hlayout.pages_ne_nil
    have hoff : m.firstValueOffset < p.length := hlayout.offset_lt
    have hfirst : m.firstPage < maxValue 32 := by
      have := hlayout.firstPage_add_length_le
      simp only [List.length_cons] at this
      omega
    obtain ⟨w, rest, hw⟩ := List.exists_cons_of_ne_nil (show p.drop m.firstValueOffset ≠ [] by
      simp [hoff])
    -- the front of the queue is the first page's value at the offset
    rw [drop_flatten_cons (Nat.le_of_lt hoff), hw, List.cons_append] at hq
    obtain ⟨rfl, rfl⟩ := List.cons.inj hq
    have hrest : p.drop (m.firstValueOffset + 1) = rest := by
      rw [← List.tail_drop, hw, List.tail_cons]
    rw [drain, readMeta_some, fromMeta, hlayout.fromStorage_first, hw]
    by_cases hnil : rest = []
    · -- the page's last value: the page goes, and the next one is first, if there is one
      subst hnil
      have hnext : saturatingAdd 32 m.firstPage 1 = m.firstPage + 1 := saturatingAdd_of_le hfirst
      have hdelete : deletePage m.firstPage ⟨some m, layoutPages m.firstPage (p :: qs)⟩ =
          ⟨some m, layoutPages (m.firstPage + 1) qs⟩ :=
        congrArg (Storage.mk (some m)) (update_layoutPages_first p qs)
      cases qs with
      | nil =>
        rw [next_drain_last_of_none (Page.fromStorage_of_none (by
          rw [hnext, hdelete, layoutPages_nil]) 0), hdelete, layoutPages_nil]
        exact ⟨Storage.empty, rfl, by simpa using Holds.empty⟩
      | cons next qs =>
        have hlayout' := hlayout.tail
        have hpage : Page.fromStorage ⟨some m, layoutPages (m.firstPage + 1) (next :: qs)⟩
            (m.firstPage + 1) 0 = some ⟨m.firstPage + 1, next⟩ :=
          hlayout'.fromStorage_first (some m) 0
        rw [next_drain_last_of_some (by rw [hnext, hdelete]; exact hpage),
          saturatingInc_of_lt hfirst, hdelete]
        refine ⟨StoragePagedListMeta.store
          { m with firstValueOffset := 0, firstPage := m.firstPage + 1 }
          ⟨some m, layoutPages (m.firstPage + 1) (next :: qs)⟩, ?_,
          Holds.paged_of_eq hlayout' rfl rfl (by simp)⟩
        rw [drain_store, fromMeta]
        dsimp only
        rw [hpage]
    · -- a value is left on the page: the offset moves on
      have hinc : saturatingInc m.firstValueOffset = m.firstValueOffset + 1 :=
        saturatingInc_of_lt (by
          have := hlayout.length_le p (by simp)
          omega)
      have hlt : m.firstValueOffset + 1 < p.length := by
        have hpos := List.length_pos_iff.mpr hnil
        rw [← hrest, List.length_drop] at hpos
        omega
      rw [next_drain_of_ne_nil hnil, hinc]
      refine ⟨StoragePagedListMeta.store { m with firstValueOffset := m.firstValueOffset + 1 }
        ⟨some m, layoutPages m.firstPage (p :: qs)⟩, ?_,
        Holds.paged_of_eq (hlayout.withOffset hlt) rfl rfl ?_⟩
      · rw [drain_store, fromMeta, hlayout.fromStorage_first, hrest]
      · rw [drop_flatten_cons (Nat.le_of_lt hlt), hrest]

theorem next_drain_of_holds_nil (h : Holds bound s []) :
    next (drain s) s = (none, drain s, s) := by
  rw [eq_empty_of_holds_nil h rfl]
  rfl

theorem take_drain_of_holds (count : Nat) (h : Holds bound s q)
    (hbound : bound ≤ maxValue 32) :
    ∃ s', take count (drain s) s = (q.take count, s') ∧ Holds bound s' (q.drop count) := by
  induction count generalizing s q with
  | zero => exact ⟨s, rfl, h⟩
  | succ count ih =>
    cases q with
    | nil => exact ⟨s, by rw [take, next_drain_of_holds_nil h]; rfl, h⟩
    | cons value q =>
      obtain ⟨s₁, hnext, h₁⟩ := next_drain_of_holds h hbound
      obtain ⟨s₂, htake, h₂⟩ := ih h₁
      refine ⟨s₂, ?_, h₂⟩
      rw [take, hnext]
      simp only [htake, List.take_succ_cons]

end Drain

/-! ## Iterating -/

section Iterate

variable {bound : Nat} {s : Storage V}

/-- An iterator at a page with values left, before the pages `qs`, lists those values and then the
pages', given a `next` for each value and one more. -/
theorem collect_iter (listMeta : StoragePagedListMeta) :
    ∀ (fuel : Nat) (page : Page V) (qs : List (List V)), page.values ≠ [] → (∀ q ∈ qs, q ≠ []) →
      (∀ k, s.pages (page.index + 1 + k) = qs[k]?) → page.index + qs.length < maxValue 32 →
      page.values.length + qs.flatten.length < fuel →
      collect fuel ⟨some page, false, listMeta⟩ s = (some (page.values ++ qs.flatten), s) := by
  intro fuel
  induction fuel with
  | zero => intro _ _ _ _ _ _ hfuel; omega
  | succ fuel ih =>
    rintro ⟨index, values⟩ qs hne hqs hafter hindex hfuel
    obtain ⟨value, rest, rfl⟩ := List.exists_cons_of_ne_nil hne
    dsimp only at hafter hindex hfuel ⊢
    by_cases hrest : rest = []
    · -- the page's last value: the iterator goes on to the next page, if there is one
      subst hrest
      rw [collect, next_iter_last, saturatingAdd_of_le (show index + 1 ≤ maxValue 32 by omega)]
      cases qs with
      | nil =>
        rw [Page.fromStorage_of_none (by simpa using hafter 0)]
        obtain ⟨fuel, rfl⟩ := Nat.exists_eq_add_of_lt (show 0 < fuel by simp at hfuel; omega)
        rfl
      | cons q qs =>
        have hq : s.pages (index + 1) = some q := by simpa using hafter 0
        rw [Page.fromStorage_of_some hq (hqs q List.mem_cons_self)]
        have hrun := ih ⟨index + 1, q⟩ qs (hqs q List.mem_cons_self)
          (fun q' hq' => hqs q' (List.mem_cons_of_mem q hq'))
          (fun k => by rw [show index + 1 + 1 + k = index + 1 + (k + 1) by omega]; exact hafter (k + 1))
          (by simp at hindex ⊢; omega) (by simp at hfuel ⊢; omega)
        simp only [List.drop_zero] at hrun ⊢
        rw [hrun]
        simp
    · rw [collect, next_iter_of_ne_nil hrest]
      have hrun := ih ⟨index, rest⟩ qs hrest hqs hafter hindex (by simp at hfuel ⊢; omega)
      dsimp only at hrun ⊢
      rw [hrun]
      simp

/-- `iter` lists the queue storage holds, and changes nothing. -/
theorem collect_iter_of_holds (h : Holds bound s q)
    {fuel : Nat} (hfuel : q.length < fuel) : collect fuel (iter s) s = (some q, s) := by
  cases h with
  | empty =>
    obtain ⟨fuel, rfl⟩ := Nat.exists_eq_add_of_lt hfuel
    rfl
  | @paged m ps hlayout =>
    obtain ⟨p, qs, rfl⟩ := List.exists_cons_of_ne_nil hlayout.pages_ne_nil
    have hoff : m.firstValueOffset < p.length := hlayout.offset_lt
    have hend := hlayout.firstPage_add_length_le
    rw [drop_flatten_cons (Nat.le_of_lt hoff)] at hfuel ⊢
    rw [iter, readMeta_some, fromMeta, hlayout.fromStorage_first]
    refine collect_iter m fuel ⟨m.firstPage, p.drop m.firstValueOffset⟩ qs (by simp [hoff])
      (fun q hq => hlayout.ne_nil q (List.mem_cons_of_mem p hq)) (fun k => ?_)
      (by simp at hend ⊢; omega) (by simpa using hfuel)
    dsimp only
    rw [Nat.add_assoc, layoutPages_add, Nat.add_comm, List.getElem?_cons_succ]

end Iterate

/-! ## Runs -/

section Run

variable {bound : Nat}

/-- One operation does to storage what it does to the queue. -/
theorem holds_run {op : Op V} (h : Holds bound s q)
    (hvpnp : ∀ vpnp items, op = .append vpnp items → 0 < vpnp ∧ vpnp ≤ bound)
    (hbound : bound ≤ maxValue 32) (hlast : (readMeta (op.run s).2).lastPage < maxValue 32) :
    (op.run s).1 = (op.runQueue q).1 ∧ Holds bound (op.run s).2 (op.runQueue q).2 := by
  cases op with
  | append vpnp items =>
    obtain ⟨hpos, hle⟩ := hvpnp vpnp items rfl
    exact ⟨rfl, holds_appendMany items h hpos hle hbound hlast⟩
  | drain count =>
    obtain ⟨s', htake, h'⟩ := take_drain_of_holds count h hbound
    simp only [Op.run, Op.runQueue, htake, true_and]
    exact h'

/-- Operations one after another do to storage what they do to the queue: the drains return what
the queue gives, and storage holds the queue after them. -/
theorem holds_runOps (ops : List (Op V))
    (h : Holds bound s q) (hvpnp : ∀ vpnp items, Op.append vpnp items ∈ ops → 0 < vpnp ∧ vpnp ≤ bound)
    (hbound : bound ≤ maxValue 32)
    (hlast : ∀ k ≤ ops.length, (readMeta (runOps (ops.take k) s).2).lastPage < maxValue 32) :
    (runOps ops s).1 = (runQueue ops q).1 ∧ Holds bound (runOps ops s).2 (runQueue ops q).2 := by
  induction ops generalizing s q with
  | nil => exact ⟨rfl, h⟩
  | cons op ops ih =>
    -- the first operation's bound is the run's after one step, the rest's are the run's after more
    obtain ⟨hout, h₁⟩ := holds_run h (fun vpnp items hop => hvpnp vpnp items (hop ▸ List.mem_cons_self))
      hbound (hlast 1 (Nat.succ_le_succ (Nat.zero_le _)))
    obtain ⟨hrest, h₂⟩ := ih h₁ (fun vpnp items hmem => hvpnp vpnp items (List.mem_cons_of_mem op hmem))
      (fun k hk => hlast (k + 1) (Nat.succ_le_succ hk))
    exact ⟨by rw [runOps, runQueue, hout, hrest], h₂⟩

end Run

/-! ## Past `u32::MAX` pages -/

section Overflow

variable (value : V)

def onePerPage (j : Nat) : Storage V :=
  ⟨some ⟨0, 0, j - 1, 1⟩, layoutPages 0 (List.replicate j [value])⟩

theorem appendMany_replicate_onePerPage :
    ∀ (k j : Nat), 0 < j → j + k ≤ 2 ^ 32 →
      appendMany 1 (List.replicate k value) (onePerPage value j) = onePerPage value (j + k) := by
  intro k
  induction k with
  | zero => intro j _ _; rfl
  | succ k ih =>
    intro j hj hjk
    -- the full page is followed by a new one, page `j`
    have hstep : (StoragePagedListMeta.appendOne 1 (readMeta (onePerPage value j)) value
        (onePerPage value j)).2 = onePerPage value (j + 1) := by
      unfold onePerPage
      rw [readMeta_some, appendOne_of_full value (Nat.le_refl 1) (by simp; omega)
        (by rw [maxValue]; dsimp only; omega), ← List.replicate_succ', Nat.add_sub_cancel,
        Nat.sub_add_cancel hj]
    rw [List.replicate_succ, StoragePagedList.appendMany_cons, hstep,
      ih (j + 1) (Nat.succ_pos j) (by omega), Nat.add_right_comm, Nat.add_assoc]

/-- Past `u32::MAX` values with one value a page, `last_page` stays at `u32::MAX`, and the page
there takes a second value. -/
theorem pages_max_of_replicate_succ_max :
    (runOps [Op.append 1 (List.replicate (2 ^ 32 + 1) value)] Storage.empty).2.pages (maxValue 32) =
      some [value, value] := by
  have hfirst : appendMany 1 [value] (Storage.empty : Storage V) = onePerPage value 1 := by
    rw [StoragePagedList.appendMany_cons, readMeta_empty, appendOne_empty value Nat.one_pos]
    rfl
  have hfull : appendMany 1 (List.replicate (2 ^ 32) value) (Storage.empty : Storage V) =
      onePerPage value (2 ^ 32) := by
    rw [show 2 ^ 32 = 1 + (2 ^ 32 - 1) by omega, List.replicate_add, appendMany_append,
      List.replicate_one, hfirst, appendMany_replicate_onePerPage value _ 1 Nat.one_pos (by omega)]
  -- the `2^32 + 1`-th value: `saturating_inc` leaves `last_page` at `u32::MAX`
  have hmax : saturatingInc (2 ^ 32 - 1) = maxValue 32 := by
    rw [saturatingInc, saturatingAdd, maxValue]
    omega
  rw [runOps, runOps, Op.run, List.replicate_succ', appendMany_append, hfull,
    StoragePagedList.appendMany_cons, onePerPage,
    readMeta_some, StoragePagedListMeta.appendOne_of_le value _ (Nat.le_refl 1)]
  dsimp only
  rw [hmax, show 2 ^ 32 - 1 = maxValue 32 from rfl, appendMany_nil, store_pages, Storage.append]
  dsimp only
  -- `simp` would build `List.replicate (2 ^ 32)`: read the one entry instead
  rw [Function.update_self, show maxValue 32 = 0 + (2 ^ 32 - 1) from rfl, layoutPages_add,
    List.getElem?_replicate_of_lt (by omega), Option.getD_some, List.singleton_append]

end Overflow

theorem paged_list_is_a_fifo_queue (ops : List (Op V))
    (hvpnp : ∀ vpnp items, Op.append vpnp items ∈ ops → 0 < vpnp ∧ vpnp ≤ maxValue 32)
    (hpages : ∀ k ≤ ops.length,
      (readMeta (runOps (ops.take k) Storage.empty).2).lastPage < maxValue 32) :
    (let r := runOps ops Storage.empty
    let queue := runQueue ops []
    r.1 = queue.1 ∧
      (∀ fuel, queue.2.length < fuel → collect fuel (iter r.2) r.2 = (some queue.2, r.2)) ∧
      (queue.2 = [] → r.2.listMeta = none ∧ ∀ index, r.2.pages index = none) ∧
      (∀ bound, (∀ vpnp items, Op.append vpnp items ∈ ops → vpnp ≤ bound) →
        ∀ index p, r.2.pages index = some p → p.length ≤ bound)) ∧
    ∀ value : V,
      (runOps [Op.append 1 (List.replicate (2 ^ 32 + 1) value)] Storage.empty).2.pages
        (maxValue 32) = some [value, value] := by
  refine ⟨?_, pages_max_of_replicate_succ_max⟩
  obtain ⟨hout, h⟩ := holds_runOps ops Holds.empty hvpnp (Nat.le_refl _) hpages
  refine ⟨hout, fun fuel hfuel => collect_iter_of_holds h hfuel, fun hnil => ?_, ?_⟩
  · rw [eq_empty_of_holds_nil h hnil]
    exact ⟨rfl, fun _ => rfl⟩
  · intro bound hle index p hpage
    by_cases hbound : bound ≤ maxValue 32
    · -- the pages' lengths are bounded by every bound of the runtime's `ValuesPerNewPage`
      obtain ⟨-, hbounded⟩ := holds_runOps ops Holds.empty
        (fun vpnp items hmem => ⟨(hvpnp vpnp items hmem).1, hle vpnp items hmem⟩) hbound hpages
      exact length_le_of_holds hbounded hpage
    · exact (length_le_of_holds h hpage).trans (by omega)

theorem paged_list_runs_as_a_fifo_queue :
    let ops : List (Op Nat) := [.append 2 [1, 2, 3], .drain 1, .append 1 [4]]
    (∀ vpnp items, Op.append vpnp items ∈ ops → 0 < vpnp ∧ vpnp ≤ maxValue 32) ∧
    (∀ k ≤ ops.length, (readMeta (runOps (ops.take k) Storage.empty).2).lastPage < maxValue 32) ∧
    (let r := runOps ops Storage.empty
    let queue := runQueue ops []
    r.1 = queue.1 ∧
      (∀ fuel, queue.2.length < fuel → collect fuel (iter r.2) r.2 = (some queue.2, r.2)) ∧
      (queue.2 = [] → r.2.listMeta = none ∧ ∀ index, r.2.pages index = none) ∧
      (∀ bound, (∀ vpnp items, Op.append vpnp items ∈ ops → vpnp ≤ bound) →
        ∀ index p, r.2.pages index = some p → p.length ≤ bound)) ∧
    ∀ value : Nat,
      (runOps [Op.append 1 (List.replicate (2 ^ 32 + 1) value)] Storage.empty).2.pages
        (maxValue 32) = some [value, value] := by
  have hvpnp : ∀ vpnp items,
      Op.append vpnp items ∈ ([.append 2 [1, 2, 3], .drain 1, .append 1 [4]] : List (Op Nat)) →
        0 < vpnp ∧ vpnp ≤ maxValue 32 := by
    intro vpnp items hmem
    simp only [List.mem_cons, Op.append.injEq, reduceCtorEq, List.not_mem_nil, or_false,
      false_or] at hmem
    rcases hmem with ⟨rfl, -⟩ | ⟨rfl, -⟩ <;> decide
  have hpages : ∀ k ≤ ([.append 2 [1, 2, 3], .drain 1, .append 1 [4]] : List (Op Nat)).length,
      (readMeta (runOps (([.append 2 [1, 2, 3], .drain 1, .append 1 [4]] : List (Op Nat)).take k)
        Storage.empty).2).lastPage < maxValue 32 := by
    decide
  exact ⟨hvpnp, hpages, paged_list_is_a_fifo_queue _ hvpnp hpages⟩

end Substrate.PagedList
