import Substrate.Lib.Ranges
import Mathlib

/-! # The block collection of chain sync

`sc_network_sync::blocks`: ranges of block numbers, downloading, downloaded or queued. The
`BTreeMap` is a list in key order, the `HashMap`s functions, and `needed_blocks`'s `panic!` `none`.
-/

namespace Substrate.Sync

open Collections Ranges

variable {Hash Peer : Type}

/-- `BlockData`: a block of a response, by its hash, with the peer it came from. -/
structure BlockData (Hash Peer : Type) where
  block : Hash
  origin : Option Peer
  deriving DecidableEq, Repr

inductive BlockRangeState (Hash Peer : Type) where
  | downloading (len : Nat) (downloading : Nat)
  | complete (blocks : List (BlockData Hash Peer))
  | queued (len : Nat)
  deriving DecidableEq, Repr

def BlockRangeState.len : BlockRangeState Hash Peer → Nat
  | .downloading len _ => len
  | .complete blocks => blocks.length
  | .queued len => len

/-- `BlockCollection`: the ranges by first block, in order; the first block each peer was asked for;
and the ranges queued for import, by their first block's hash. -/
structure BlockCollection (Hash Peer : Type) where
  blocks : List (Nat × BlockRangeState Hash Peer)
  peerRequests : Peer → Option Nat
  queuedBlocks : Hash → Option (Nat × Nat)

namespace BlockCollection

def new : BlockCollection Hash Peer := ⟨[], fun _ => none, fun _ => none⟩

def clear (c : BlockCollection Hash Peer) : BlockCollection Hash Peer :=
  { c with blocks := [], peerRequests := fun _ => none }

/-- `insert`: the blocks replace the range at `start`, unless a complete range at least as long
is there. -/
def insert (c : BlockCollection Hash Peer) (start : Nat) (blocks : List Hash) (who : Peer) :
    BlockCollection Hash Peer :=
  let stored := { c with
    blocks := BTreeMap.insert compare start
      (.complete (blocks.map fun block => ⟨block, some who⟩)) c.blocks }
  if blocks.isEmpty then c
  else
    match BTreeMap.get? compare start c.blocks with
    | some (.complete existing) => if blocks.length ≤ existing.length then c else stored
    | _ => stored

def reusable (maxParallel : Nat) : BlockRangeState Hash Peer → Option (Nat × Nat)
  | .downloading len downloading =>
      if downloading < maxParallel then some (len, downloading) else none
  | _ => none

/-- The loop of `needed_blocks` over the ranges in order, with the range before (`prev`): the
range to ask for, and the peers already downloading it. -/
def chooseRange (count firstDifferent maxParallel : Nat) :
    Option (Nat × BlockRangeState Hash Peer) → List (Nat × BlockRangeState Hash Peer) →
      (Nat × Nat) × Nat
  | none, [] => ((firstDifferent, firstDifferent + count), 0)
  | none, (start, r) :: rest =>
      -- a gap before the first range
      if firstDifferent < start then ((firstDifferent, min (firstDifferent + count) start), 0)
      else chooseRange count firstDifferent maxParallel (some (start, r)) rest
  | some (start, r), rest =>
      match reusable maxParallel r with
      | some (len, downloading) => ((start, start + len), downloading)
      | none =>
          match rest with
          -- after the last range
          | [] => ((start + r.len, start + r.len + count), 0)
          | (nextStart, r') :: rest' =>
              -- a gap between two ranges
              if start + r.len < nextStart then
                ((start + r.len, min nextStart (start + r.len + count)), 0)
              else chooseRange count firstDifferent maxParallel (some (nextStart, r')) rest'

/-- `needed_blocks`: the range to ask `who` for, cropped to its best block, which is marked as
being downloaded. An empty range panics. -/
def neededBlocks [DecidableEq Peer] (c : BlockCollection Hash Peer) (who : Peer)
    (count peerBest common maxParallel maxAhead : Nat) :
    Option (BlockCollection Hash Peer × Option (Nat × Nat)) :=
  if peerBest ≤ common then some (c, none)
  else
    let firstDifferent := common + 1
    let choice := chooseRange count firstDifferent maxParallel none c.blocks
    let start := choice.1.1
    if peerBest < start then some (c, none)
    else
      let stop := min (peerBest + 1) choice.1.2
      if (c.blocks.head?.map fun first => decide (first.1 + maxAhead < start)).getD false then
        some (c, none)
      else
        let c := { c with
          peerRequests := Function.update c.peerRequests who (some start)
          blocks := BTreeMap.insert compare start (.downloading (stop - start) (choice.2 + 1))
            c.blocks }
        if stop ≤ start then none else some (c, some (start, stop))

/-- The loop of `ready_blocks` from the first block `prev` it may take: complete ranges give their
blocks and are queued, queued ones are passed, and others stop it. -/
def readyLoop [DecidableEq Hash] (prev : Nat) (queued : Hash → Option (Nat × Nat)) :
    List (Nat × BlockRangeState Hash Peer) →
      List (Nat × BlockRangeState Hash Peer) × List (BlockData Hash Peer) ×
        (Hash → Option (Nat × Nat))
  | [] => ([], [], queued)
  | (start, r) :: rest =>
      if prev < start then ((start, r) :: rest, [], queued)
      else
        match r with
        | .complete blocks =>
            let len := blocks.length
            let queued := match blocks.head? with
              | some first => Function.update queued first.block (some (start, start + len))
              | none => queued
            let after := readyLoop (start + len) queued rest
            ((start, .queued len) :: after.1, blocks ++ after.2.1, after.2.2)
        | .queued len =>
            let after := readyLoop prev queued rest
            ((start, .queued len) :: after.1, after.2.1, after.2.2)
        | .downloading len downloading =>
            ((start, .downloading len downloading) :: rest, [], queued)

def readyBlocks [DecidableEq Hash] (c : BlockCollection Hash Peer) («from» : Nat) :
    BlockCollection Hash Peer × List (BlockData Hash Peer) :=
  let result := readyLoop «from» c.queuedBlocks c.blocks
  ({ c with blocks := result.1, queuedBlocks := result.2.2 }, result.2.1)

def clearQueued [DecidableEq Hash] (c : BlockCollection Hash Peer) (hash : Hash) :
    BlockCollection Hash Peer :=
  match c.queuedBlocks hash with
  | some (fromNum, toNum) =>
      { c with
        queuedBlocks := Function.update c.queuedBlocks hash none
        blocks := (List.range' fromNum (toNum - fromNum)).foldl
          (fun blocks blockNum => BTreeMap.remove compare blockNum blocks) c.blocks }
  | none => c

/-- `clear_peer_download`: the range the peer was asked for loses a downloader, and goes when it
loses the last. -/
def clearPeerDownload [DecidableEq Peer] (c : BlockCollection Hash Peer) (who : Peer) :
    BlockCollection Hash Peer :=
  match c.peerRequests who with
  | some start =>
      let c : BlockCollection Hash Peer :=
        { c with peerRequests := Function.update c.peerRequests who none }
      match BTreeMap.get? compare start c.blocks with
      | some (.downloading len downloading) =>
          if 1 < downloading then
            { c with
              blocks := BTreeMap.modify compare start
                (fun _ => .downloading len (downloading - 1)) c.blocks }
          else { c with blocks := BTreeMap.remove compare start c.blocks }
      | _ => c
  | none => c

/-! ## The range `needed_blocks` picks -/

/-- What the loop of `needed_blocks` may pick: a range downloaded by fewer than `max_parallel`
peers, or at most `count` blocks meeting no stored range. -/
inductive Choice (blocks : List (Nat × BlockRangeState Hash Peer))
    (count firstDifferent maxParallel : Nat) : (Nat × Nat) × Nat → Prop
  | reuse {start len downloading : Nat} (hmem : (start, .downloading len downloading) ∈ blocks)
      (hroom : downloading < maxParallel) :
      Choice blocks count firstDifferent maxParallel ((start, start + len), downloading)
  | fresh {start stop : Nat} (hlt : start < stop) (hcount : stop ≤ start + count)
      (hfrom : start = firstDifferent ∨ ∃ e ∈ blocks, start = e.1 + e.2.len)
      (hfree : ∀ e ∈ blocks, e.1 + e.2.len ≤ start ∨ stop ≤ e.1) :
      Choice blocks count firstDifferent maxParallel ((start, stop), 0)

theorem reusable_eq_some {maxParallel len downloading : Nat} {r : BlockRangeState Hash Peer}
    (h : reusable maxParallel r = some (len, downloading)) :
    r = .downloading len downloading ∧ downloading < maxParallel := by
  cases r with
  | downloading len' downloading' =>
    rw [reusable] at h
    split_ifs at h with hroom
    cases h
    exact ⟨rfl, hroom⟩
  | complete blocks => cases h
  | queued len' => cases h

variable {count firstDifferent maxParallel : Nat}

/-- From a range on, the loop picks a range the collection allows; by induction on the ranges after
the one before, which end before it. -/
theorem chooseRange_some (hcount : 0 < count) (rest : List (Nat × BlockRangeState Hash Peer)) :
    ∀ (init : List (Nat × BlockRangeState Hash Peer)) (p : Nat × BlockRangeState Hash Peer),
      Separated BlockRangeState.len (init ++ p :: rest) →
      Choice (init ++ p :: rest) count firstDifferent maxParallel
        (chooseRange count firstDifferent maxParallel (some p) rest) := by
  induction rest with
  | nil =>
    intro init p h
    obtain ⟨start, r⟩ := p
    rw [chooseRange]
    cases hreuse : reusable maxParallel r with
    | some found =>
      obtain ⟨rfl, hroom⟩ := reusable_eq_some hreuse
      exact .reuse (List.mem_append_right _ List.mem_cons_self) hroom
    | none =>
      -- after the last range
      refine .fresh (by omega) le_rfl (.inr ⟨_, List.mem_append_right _ List.mem_cons_self, rfl⟩)
        ?_
      intro e he
      rcases List.mem_append.mp he with he | he
      · have := h.around.1 e he
        exact .inl (by dsimp only at this ⊢; omega)
      · rcases List.mem_singleton.mp he with rfl
        exact .inl le_rfl
  | cons next rest ih =>
    intro init p h
    obtain ⟨start, r⟩ := p
    obtain ⟨nextStart, r'⟩ := next
    rw [chooseRange]
    cases hreuse : reusable maxParallel r with
    | some found =>
      obtain ⟨rfl, hroom⟩ := reusable_eq_some hreuse
      exact .reuse (List.mem_append_right _ List.mem_cons_self) hroom
    | none =>
      dsimp only
      split_ifs with hgap
      · -- a gap between this range and the next
        have haround := h.around
        refine .fresh (by omega) (min_le_right _ _)
          (.inr ⟨_, List.mem_append_right _ List.mem_cons_self, rfl⟩) ?_
        intro e he
        rcases List.mem_append.mp he with he | he
        · have := haround.1 e he
          exact .inl (by dsimp only at this ⊢; omega)
        · rcases List.mem_cons.mp he with rfl | he
          · exact .inl le_rfl
          · have := haround.2 e he
            rcases List.mem_cons.mp he with rfl | he
            · exact .inr (min_le_left _ _)
            · -- a later range starts after the next one
              have hsplit : Separated BlockRangeState.len
                  ((init ++ [(start, r)]) ++ (nextStart, r') :: rest) := by simpa using h
              have hlater := hsplit.around.2 e he
              exact .inr ((min_le_left _ _).trans (by dsimp only at hlater; omega))
      · -- no gap: the loop goes on from the next range
        have hnext := ih (init ++ [(start, r)]) (nextStart, r') (by simpa using h)
        simpa using hnext

variable {blocks : List (Nat × BlockRangeState Hash Peer)}

/-- The loop of `needed_blocks` picks a range the collection allows. -/
theorem chooseRange_choice (hcount : 0 < count)
    (h : Separated BlockRangeState.len blocks) :
    Choice blocks count firstDifferent maxParallel
      (chooseRange count firstDifferent maxParallel none blocks) := by
  cases blocks with
  | nil =>
    exact .fresh (by omega) le_rfl (.inl rfl) (fun _ he => by cases he)
  | cons first rest =>
    obtain ⟨start, r⟩ := first
    rw [chooseRange]
    split_ifs with hgap
    · -- a gap before the first range
      refine .fresh (lt_min (by omega) hgap) (min_le_left _ _) (.inl rfl) ?_
      intro e he
      rcases List.mem_cons.mp he with rfl | he
      · exact .inr (min_le_right _ _)
      · have hsplit : Separated BlockRangeState.len ([] ++ (start, r) :: rest) := h
        have := hsplit.around.2 e he
        exact .inr ((min_le_right _ _).trans (by dsimp only at this; omega))
    · exact chooseRange_some hcount rest [] (start, r) h

theorem Choice.start_lt (h : Separated BlockRangeState.len blocks) {choice : (Nat × Nat) × Nat}
    (hchoice : Choice blocks count firstDifferent maxParallel choice) :
    choice.1.1 < choice.1.2 := by
  cases hchoice with
  | reuse hmem hroom =>
    have := h.nonempty _ hmem
    rw [BlockRangeState.len] at this
    dsimp only
    omega
  | fresh hlt => exact hlt

/-- A range the loop picks, up to a stop no later than its own, meets no range stored at another
number. -/
theorem Choice.free (h : Separated BlockRangeState.len blocks) {choice : (Nat × Nat) × Nat}
    (hchoice : Choice blocks count firstDifferent maxParallel choice) {stop : Nat}
    (hstop : stop ≤ choice.1.2) :
    ∀ e ∈ blocks, e.1 ≠ choice.1.1 → e.1 + e.2.len ≤ choice.1.1 ∨ stop ≤ e.1 := by
  intro e he hne
  cases hchoice with
  | reuse hmem hroom =>
    -- the range being downloaded is stored, so the others are apart from it
    dsimp only at hne hstop ⊢
    rcases lt_or_gt_of_ne hne with hlt | hgt
    · exact .inl (h.disjoint e he _ hmem hlt)
    · have := h.disjoint _ hmem e he hgt
      rw [BlockRangeState.len] at this
      exact .inr (by dsimp only at this; omega)
  | fresh hlt hcount hfrom hfree =>
    rcases hfree e he with hbefore | hafter
    · exact .inl hbefore
    · exact .inr (hstop.trans hafter)

variable {c : BlockCollection Hash Peer}

/-- `needed_blocks` with `count ≥ 1` on ranges apart never panics; a range it returns is one the
loop picks, cropped to the peer's best block, and the ranges stay apart. -/
theorem neededBlocks_spec [DecidableEq Peer]
    (h : Separated BlockRangeState.len c.blocks) (who : Peer)
    (count peerBest common maxParallel maxAhead : Nat) (hcount : 0 < count) :
    ∃ c' result, c.neededBlocks who count peerBest common maxParallel maxAhead = some (c', result) ∧
      Separated BlockRangeState.len c'.blocks ∧
      ∀ start stop, result = some (start, stop) → start < stop ∧ stop ≤ peerBest + 1 ∧
        ∃ choice, Choice c.blocks count (common + 1) maxParallel choice ∧ start = choice.1.1 ∧
          stop = min (peerBest + 1) choice.1.2 := by
  have hchoice : Choice c.blocks count (common + 1) maxParallel
      (chooseRange count (common + 1) maxParallel none c.blocks) := chooseRange_choice hcount h
  have hlt := hchoice.start_lt h
  rw [neededBlocks]
  dsimp only
  split_ifs with hbest hstart hahead hempty
  · exact ⟨c, none, rfl, h, fun _ _ hnone => by cases hnone⟩
  · exact ⟨c, none, rfl, h, fun _ _ hnone => by cases hnone⟩
  · exact ⟨c, none, rfl, h, fun _ _ hnone => by cases hnone⟩
  · -- the cropped range keeps the peer's best block, so it is not empty
    omega
  · refine ⟨_, _, rfl, ?_, ?_⟩
    · refine h.insert (by rw [BlockRangeState.len]; omega) ?_
      intro e he hne
      rw [BlockRangeState.len, Nat.add_sub_cancel' (by omega)]
      exact hchoice.free h (min_le_right _ _) e he hne
    · intro start stop hresult
      cases hresult
      exact ⟨by omega, min_le_left _ _, _, hchoice, rfl, rfl⟩

/-! ## The other operations keep the ranges apart -/

def Fits (c : BlockCollection Hash Peer) (start count : Nat) : Prop :=
  ∀ e ∈ c.blocks, e.1 ≠ start → e.1 + e.2.len ≤ start ∨ start + count ≤ e.1

theorem separated_insert
    (h : Separated BlockRangeState.len c.blocks) {start : Nat} {blocks : List Hash}
    (hfits : Fits c start blocks.length) (who : Peer) :
    Separated BlockRangeState.len (c.insert start blocks who).blocks := by
  rw [insert]
  split_ifs with hempty
  · exact h
  · -- the stored range is as long as the response
    have hstored : Separated BlockRangeState.len (BTreeMap.insert compare start
        (.complete (blocks.map fun block => ⟨block, some who⟩)) c.blocks) := by
      refine h.insert ?_ ?_
      · rw [BlockRangeState.len, List.length_map]
        exact List.length_pos_iff.mpr (fun hnil => hempty (by rw [hnil]; rfl))
      · rw [BlockRangeState.len, List.length_map]
        exact hfits
    split
    · split_ifs
      · exact h
      · exact hstored
    · exact hstored

theorem forall₂_readyLoop [DecidableEq Hash] (blocks : List (Nat × BlockRangeState Hash Peer)) :
    ∀ (prev : Nat) (queued : Hash → Option (Nat × Nat)),
      List.Forall₂ (fun a b => a.1 = b.1 ∧ b.2.len = a.2.len) blocks
        (readyLoop prev queued blocks).1 := by
  have hsame : ∀ l : List (Nat × BlockRangeState Hash Peer),
      List.Forall₂ (fun a b => a.1 = b.1 ∧ b.2.len = a.2.len) l l :=
    fun l => List.forall₂_same.mpr fun _ _ => ⟨rfl, rfl⟩
  induction blocks with
  | nil => intro _ _; exact List.Forall₂.nil
  | cons entry rest ih =>
    intro prev queued
    obtain ⟨start, r⟩ := entry
    -- a taken range becomes queued at its own length, a passed one stays
    cases r with
    | complete blocks =>
      rw [readyLoop]
      split_ifs with hpast
      · exact hsame _
      · exact List.Forall₂.cons ⟨rfl, rfl⟩ (ih _ _)
    | queued len =>
      rw [readyLoop]
      split_ifs with hpast
      · exact hsame _
      · exact List.Forall₂.cons ⟨rfl, rfl⟩ (ih _ _)
    | downloading len downloading =>
      rw [readyLoop]
      split_ifs <;> exact hsame _

/-- The loop of `ready_blocks` hands on complete ranges, the first from a number not past `prev`,
each starting where the one before ends. -/
theorem readyLoop_taken [DecidableEq Hash] (blocks : List (Nat × BlockRangeState Hash Peer)) :
    ∀ (prev : Nat) (queued : Hash → Option (Nat × Nat)), Separated BlockRangeState.len blocks →
      ∃ taken : List (Nat × List (BlockData Hash Peer)),
        (readyLoop prev queued blocks).2.1 = taken.flatMap (·.2) ∧
        (∀ t ∈ taken, (t.1, .complete t.2) ∈ blocks) ∧
        (∀ t ∈ taken.head?, t.1 ≤ prev) ∧
        taken.IsChain (fun a b => a.1 + a.2.length = b.1) := by
  -- where the loop stops at once, it takes nothing
  have hnothing : ∀ (l : List (Nat × BlockRangeState Hash Peer)) (prev : Nat),
      ∃ taken : List (Nat × List (BlockData Hash Peer)),
        ([] : List (BlockData Hash Peer)) = taken.flatMap (·.2) ∧
        (∀ t ∈ taken, (t.1, (.complete t.2 : BlockRangeState Hash Peer)) ∈ l) ∧
        (∀ t ∈ taken.head?, t.1 ≤ prev) ∧ taken.IsChain (fun a b => a.1 + a.2.length = b.1) :=
    fun _ _ => ⟨[], rfl, (fun _ ht => by cases ht), (fun _ ht => by cases ht), List.IsChain.nil⟩
  induction blocks with
  | nil =>
    intro prev queued _
    exact hnothing _ _
  | cons entry rest ih =>
    intro prev queued h
    obtain ⟨start, r⟩ := entry
    have hrest := h.sublist (List.sublist_cons_self _ _)
    cases r with
    | complete blocks =>
      rw [readyLoop]
      split_ifs with hpast
      · exact hnothing _ _
      · obtain ⟨taken, hready, hmem, hhead, hchain⟩ := ih _ _ hrest
        refine ⟨(start, blocks) :: taken, ?_, ?_, ?_, ?_⟩
        · rw [List.flatMap_cons, ← hready]
        · intro t ht
          rcases List.mem_cons.mp ht with rfl | ht
          · exact List.mem_cons_self
          · exact List.mem_cons_of_mem _ (hmem t ht)
        · intro t ht
          cases ht
          omega
        · refine hchain.cons ?_
          -- the next taken range starts after this one, and not past its end
          intro t ht
          have hsplit : Separated BlockRangeState.len ([] ++ (start, .complete blocks) :: rest) := h
          have hafter := hsplit.around.2 _ (hmem t (List.mem_of_mem_head? ht))
          have hle := hhead t ht
          rw [BlockRangeState.len] at hafter
          dsimp only at hafter ⊢
          omega
    | queued len =>
      rw [readyLoop]
      split_ifs with hpast
      · exact hnothing _ _
      · obtain ⟨taken, hready, hmem, hhead, hchain⟩ := ih prev queued hrest
        exact ⟨taken, hready, fun t ht => List.mem_cons_of_mem _ (hmem t ht), hhead, hchain⟩
    | downloading len downloading =>
      rw [readyLoop]
      split_ifs <;> exact hnothing _ _

theorem separated_readyBlocks [DecidableEq Hash]
    (h : Separated BlockRangeState.len c.blocks) («from» : Nat) :
    Separated BlockRangeState.len (c.readyBlocks «from»).1.blocks :=
  h.of_forall₂ (forall₂_readyLoop c.blocks «from» c.queuedBlocks)

theorem separated_clearQueued [DecidableEq Hash]
    (h : Separated BlockRangeState.len c.blocks) (hash : Hash) :
    Separated BlockRangeState.len (c.clearQueued hash).blocks := by
  -- removing block numbers one by one only takes entries out
  have hremove : ∀ (numbers : List Nat) (blocks : List (Nat × BlockRangeState Hash Peer)),
      Separated BlockRangeState.len blocks →
      Separated BlockRangeState.len
        (numbers.foldl (fun blocks blockNum => BTreeMap.remove compare blockNum blocks) blocks) := by
    intro numbers
    induction numbers with
    | nil => exact fun _ hblocks => hblocks
    | cons number numbers ih => exact fun blocks hblocks => ih _ (hblocks.remove number)
  rw [clearQueued]
  split
  · exact hremove _ _ h
  · exact h

theorem separated_clearPeerDownload [DecidableEq Peer]
    (h : Separated BlockRangeState.len c.blocks) (who : Peer) :
    Separated BlockRangeState.len (c.clearPeerDownload who).blocks := by
  rw [clearPeerDownload]
  split
  · rename_i start hrequest
    dsimp only
    split
    · rename_i len downloading hfound
      have hmem := (BTreeMap.get?_eq_some_iff h.sorted).mp hfound
      split_ifs
      · -- one downloader less leaves the range as long as it was
        refine h.of_forall₂ (List.forall₂_map_right_iff.mpr (List.forall₂_same.mpr ?_))
        intro e he
        dsimp only
        split_ifs with hkey
        · -- the entry at `start` is the one found
          have heq : e = (start, .downloading len downloading) :=
            BTreeMap.eq_of_mem_of_fst_eq h.sorted he hmem (by simpa using hkey)
          subst heq
          exact ⟨rfl, rfl⟩
        · exact ⟨rfl, rfl⟩
      · exact h.remove start
    · exact h
  · exact h

/-! ## Along a run -/

/-- The operations on the collection, with `needed_blocks` asked for at least one block and each
response inserted where it fits. -/
inductive Step [DecidableEq Hash] [DecidableEq Peer] :
    BlockCollection Hash Peer → BlockCollection Hash Peer → Prop
  | neededBlocks {c c' : BlockCollection Hash Peer} {result : Option (Nat × Nat)} (who : Peer)
      (count peerBest common maxParallel maxAhead : Nat) (hcount : 0 < count)
      (hcall : c.neededBlocks who count peerBest common maxParallel maxAhead = some (c', result)) :
      Step c c'
  | insert {c : BlockCollection Hash Peer} (start : Nat) (blocks : List Hash) (who : Peer)
      (hfits : Fits c start blocks.length) : Step c (c.insert start blocks who)
  | readyBlocks {c : BlockCollection Hash Peer} («from» : Nat) : Step c (c.readyBlocks «from»).1
  | clearQueued {c : BlockCollection Hash Peer} (hash : Hash) : Step c (c.clearQueued hash)
  | clearPeerDownload {c : BlockCollection Hash Peer} (who : Peer) :
      Step c (c.clearPeerDownload who)
  | clear {c : BlockCollection Hash Peer} : Step c c.clear

section Run

variable [DecidableEq Hash] [DecidableEq Peer] {c c' : BlockCollection Hash Peer}

theorem separated_step (h : Separated BlockRangeState.len c.blocks) (hstep : Step c c') :
    Separated BlockRangeState.len c'.blocks := by
  cases hstep with
  | neededBlocks who count peerBest common maxParallel maxAhead hcount hcall =>
    obtain ⟨c'', result', hcall', hseparated, -⟩ :=
      neededBlocks_spec h who count peerBest common maxParallel maxAhead hcount
    rw [hcall, Option.some.injEq, Prod.mk.injEq] at hcall'
    rw [hcall'.1]
    exact hseparated
  | insert start blocks who hfits => exact separated_insert h hfits who
  | readyBlocks «from» => exact separated_readyBlocks h «from»
  | clearQueued hash => exact separated_clearQueued h hash
  | clearPeerDownload who => exact separated_clearPeerDownload h who
  | clear => exact Separated.nil

/-- Along every run whose responses fit, the stored ranges stay apart. -/
theorem separated_reachable (hrun : Relation.ReflTransGen Step new c) :
    Separated BlockRangeState.len c.blocks := by
  induction hrun with
  | refl => exact Separated.nil
  | tail _ hstep ih => exact separated_step ih hstep

end Run

/-- Along every run whose responses fit, the ranges stay apart, `needed_blocks` never panics and
`ready_blocks` hands on complete ranges in order. But shared blocks are asked for, and a response
for a cropped, given-up or queued range hands blocks on twice. -/
theorem neededBlocks_asks_below_common [DecidableEq Hash] [DecidableEq Peer] :
    (∀ c : BlockCollection Hash Peer, Relation.ReflTransGen Step new c →
      Separated BlockRangeState.len c.blocks ∧
      (∀ (who : Peer) (count peerBest common maxParallel maxAhead : Nat), 0 < count →
        ∃ c' result,
          c.neededBlocks who count peerBest common maxParallel maxAhead = some (c', result) ∧
          ∀ start stop, result = some (start, stop) → start < stop ∧ stop ≤ peerBest + 1 ∧
            ∃ choice, Choice c.blocks count (common + 1) maxParallel choice ∧
              start = choice.1.1 ∧ stop = min (peerBest + 1) choice.1.2) ∧
      ∀ «from» : Nat, ∃ taken : List (Nat × List (BlockData Hash Peer)),
        (c.readyBlocks «from»).2 = taken.flatMap (·.2) ∧
        (∀ t ∈ taken, (t.1, .complete t.2) ∈ c.blocks) ∧ (∀ t ∈ taken.head?, t.1 ≤ «from») ∧
        taken.IsChain (fun a b => a.1 + a.2.length = b.1)) ∧
    (∃ c₁ : BlockCollection Nat Nat, neededBlocks new 1 10 100 0 1 100 = some (c₁, some (1, 11)) ∧
      ∃ c₂, neededBlocks c₁ 2 5 30 20 1 100 = some (c₂, some (11, 16))) ∧
    (∃ c₁ : BlockCollection Nat Nat, neededBlocks new 1 10 100 0 2 100 = some (c₁, some (1, 11)) ∧
      ∃ c₂, neededBlocks c₁ 2 10 3 0 2 100 = some (c₂, some (1, 4)) ∧
      ∃ c₃, neededBlocks c₂ 3 3 100 0 2 100 = some (c₃, some (4, 7)) ∧
      ¬Separated BlockRangeState.len (c₃.insert 1 (List.range 10) 1).blocks ∧
      (((c₃.insert 1 (List.range 10) 1).insert 4 [20, 21, 22] 3).readyBlocks 1).2.map (·.block) =
        List.range 10 ++ [20, 21, 22]) ∧
    (∃ c₁ : BlockCollection Nat Nat, neededBlocks new 1 10 100 0 2 100 = some (c₁, some (1, 11)) ∧
      ∃ c₂, neededBlocks c₁ 2 10 100 0 2 100 = some (c₂, some (1, 11)) ∧
      ∃ c₃ ready₁, ((c₂.clearPeerDownload 1).insert 1 (List.range 10) 1).readyBlocks 1 =
        (c₃, ready₁) ∧
      ∃ c₄ ready₂, ((c₃.clearPeerDownload 2).insert 1 (List.range 10) 2).readyBlocks 1 =
        (c₄, ready₂) ∧
      ready₁.map (·.block) = List.range 10 ∧ ready₂.map (·.block) = List.range 10) := by
  refine ⟨?_, ⟨_, rfl, _, rfl⟩, ⟨_, rfl, _, rfl, _, rfl, ?_, by decide⟩,
    ⟨_, rfl, _, rfl, _, _, rfl, _, _, rfl, by decide, by decide⟩⟩
  · intro c hrun
    have h := separated_reachable hrun
    refine ⟨h, ?_, ?_⟩
    · intro who count peerBest common maxParallel maxAhead hcount
      obtain ⟨c', result, hcall, -, hresult⟩ :=
        neededBlocks_spec h who count peerBest common maxParallel maxAhead hcount
      exact ⟨c', result, hcall, hresult⟩
    · intro «from»
      exact readyLoop_taken c.blocks «from» c.queuedBlocks h
  · -- the late response's range [1, 11) overlaps the range [4, 7) asked for since
    intro h
    have hoverlap := h.disjoint _ (List.mem_cons_self) _
      (List.mem_cons_of_mem _ List.mem_cons_self) (by decide)
    exact absurd hoverlap (by decide)

end BlockCollection

end Substrate.Sync
