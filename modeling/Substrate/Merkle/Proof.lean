import Substrate.Merkle.Tree

/-! # Merkle proofs: what `merkle_proof` collects and what `verify_proof` accepts

The root is `rowRoot` and the proof `rowProof`, the siblings along the leaf's path. For an
injective hasher a proof of the honest length authenticates only the stored leaf, but the number
of items is not checked: a shorter proof authenticates two child hashes as a leaf.
-/

namespace Substrate.Merkle

variable {Out V : Type}

/-! ## The rows of the tree -/

/-- The root over a row: rows are merged until at most one item is left. -/
def rowRoot [Inhabited Out] (H : Hasher Out) (row : List Out) : Out :=
  if 2 ≤ row.length then rowRoot H (parentRow H row) else row.headD default
termination_by row.length
decreasing_by simp only [parentRow_length]; omega

variable {row : List Out}

theorem rowRoot_of_two_le [Inhabited Out] (H : Hasher Out)
    (hrow : 2 ≤ row.length) : rowRoot H row = rowRoot H (parentRow H row) := by
  rw [rowRoot, if_pos hrow]

theorem rowRoot_singleton [Inhabited Out] (H : Hasher Out) (a : Out) :
    rowRoot H [a] = a := by
  rw [rowRoot, if_neg (by simp)]
  rfl

/-- The sibling that `ProofCollection` records at position `p` of a row. -/
def siblingOf (row : List Out) (p : Nat) : List Out :=
  if p % 2 = 0 then row[p + 1]?.toList else row[p - 1]?.toList

/-- The siblings along the path from position `p` of a row to the root. -/
def rowProof (H : Hasher Out) (row : List Out) (p : Nat) : List Out :=
  if 2 ≤ row.length then siblingOf row p ++ rowProof H (parentRow H row) (p / 2) else []
termination_by row.length
decreasing_by simp only [parentRow_length]; omega

variable (H : Hasher Out)

theorem rowProof_of_two_le (hrow : 2 ≤ row.length)
    (p : Nat) : rowProof H row p = siblingOf row p ++ rowProof H (parentRow H row) (p / 2) := by
  rw [rowProof, if_pos hrow]

theorem rowProof_of_length_le_one (hrow : row.length ≤ 1)
    (p : Nat) : rowProof H row p = [] := by
  rw [rowProof, if_neg (by omega)]

theorem siblingOf_cons_cons (a b : Out) (rest : List Out) (q : Nat) :
    siblingOf (a :: b :: rest) (q + 2) = siblingOf rest q := by
  unfold siblingOf
  have hq : (q + 2) % 2 = q % 2 := by omega
  rw [hq]
  split
  · rfl
  · -- an odd position has its left sibling two places further in the longer row
    have hpos : q + 2 - 1 = (q - 1) + 2 := by omega
    rw [hpos]
    rfl

/-- Each level contributes one sibling, except the last node of an odd row,
which `merkelize_row` promotes without a partner. -/
theorem siblingOf_length {p : Nat} (hp : p < row.length) :
    (siblingOf row p).length = if p % 2 = 0 ∧ p + 1 = row.length then 0 else 1 := by
  unfold siblingOf
  by_cases heven : p % 2 = 0
  · by_cases hlast : p + 1 = row.length
    · simp [heven, hlast]
    · simp [heven, hlast, List.getElem?_eq_getElem (show p + 1 < row.length by omega)]
  · simp [heven, List.getElem?_eq_getElem (show p - 1 < row.length by omega)]

theorem parentRow_getElem?_pair (row : List Out) (p : Nat)
    (hp : p % 2 = 0) (x y : Out) (hx : row[p]? = some x) (hy : row[p + 1]? = some y) :
    (parentRow H row)[p / 2]? = some (H.node x y) := by
  induction row using parentRow.induct generalizing p with
  | case1 a b rest ih =>
    rcases p with _ | _ | q
    · simp only [List.getElem?_cons_zero, Option.some.injEq] at hx
      simp only [Nat.zero_add, List.getElem?_cons_succ, List.getElem?_cons_zero,
        Option.some.injEq] at hy
      subst hx hy
      rfl
    · -- an odd position
      omega
    · have hq : (q + 1 + 1) / 2 = q / 2 + 1 := by omega
      simp only [List.getElem?_cons_succ] at hx hy
      rw [hq, parentRow, List.getElem?_cons_succ]
      exact ih q (by omega) hx hy
  | case2 a =>
    cases p <;> simp at hy
  | case3 => simp at hx

theorem parentRow_getElem?_last (row : List Out) (p : Nat)
    (hp : p % 2 = 0) (hlast : p + 1 = row.length) (x : Out) (hx : row[p]? = some x) :
    (parentRow H row)[p / 2]? = some x := by
  induction row using parentRow.induct generalizing p with
  | case1 a b rest ih =>
    rcases p with _ | _ | q
    · simp at hlast
    · -- an odd position
      omega
    · have hq : (q + 1 + 1) / 2 = q / 2 + 1 := by omega
      simp only [List.getElem?_cons_succ] at hx
      simp only [List.length_cons] at hlast
      rw [hq, parentRow, List.getElem?_cons_succ]
      exact ih q (by omega) (by omega) hx
  | case2 a =>
    have hp0 : p = 0 := by simpa using hlast
    subst hp0
    simpa [parentRow] using hx
  | case3 => simp at hx

theorem parentRow_getElem?_odd (row : List Out) (p : Nat)
    (hp : p % 2 = 1) (x y : Out) (hx : row[p - 1]? = some x) (hy : row[p]? = some y) :
    (parentRow H row)[p / 2]? = some (H.node x y) := by
  obtain ⟨q, rfl⟩ : ∃ q, p = q + 1 := ⟨p - 1, by omega⟩
  have hq : (q + 1) / 2 = q / 2 := by omega
  rw [hq]
  exact parentRow_getElem?_pair H row q (by omega) x y (by simpa using hx) hy

/-! ## What `merkelize` computes -/

theorem merkelizeRow_singleton (visitor : Visitor Out V) (a : Out) (v : V) :
    merkelizeRow H visitor [a] v = (visitor.visit v 0 (some a) none, .ok a) := by
  simp [merkelizeRow, merkelizeRowLoop]

theorem merkelizeRow_eq_error (visitor : Visitor Out V) (row : List Out)
    (v : V) (hrow : 2 ≤ row.length) :
    merkelizeRow H visitor row v =
      ((merkelizeRow H visitor row v).1, .error (parentRow H row)) :=
  Prod.ext rfl (merkelizeRow_error_of_two_le H visitor row v hrow)

/-- Rows of two or more items halve, so a row of `n` items needs at most
`n` rounds of the loop. -/
theorem parentRow_length_lt (hrow : 2 ≤ row.length) :
    (parentRow H row).length < row.length := by
  rw [parentRow_length]
  omega

/-- The loop returns the root of its row whatever the visitor, given as many
rounds as the row has items. -/
theorem merkelizeLoop_root [Inhabited Out] (H : Hasher Out) (visitor : Visitor Out V)
    (fuel : Nat) (next : List Out) (v : V) (hne : next ≠ []) (hfuel : next.length ≤ fuel) :
    (merkelizeLoop H visitor fuel next v).2 = rowRoot H next := by
  induction fuel generalizing next v with
  | zero =>
    have : next.length = 0 := by omega
    exact absurd (List.length_eq_zero_iff.mp this) hne
  | succ fuel ih =>
    rw [merkelizeLoop]
    by_cases hrow : 2 ≤ next.length
    · -- the row merges into the shorter row above, which the next round takes
      rw [merkelizeRow_eq_error H visitor next _ hrow, rowRoot_of_two_le H hrow]
      have hlt := parentRow_length_lt H hrow
      exact ih _ _ (by simp only [ne_eq, ← List.length_eq_zero_iff, parentRow_length]; omega)
        (by omega)
    · -- a single item is the root
      obtain ⟨a, rfl⟩ : ∃ a, next = [a] := by
        rcases next with _ | ⟨a, _ | ⟨b, rest⟩⟩
        · exact absurd rfl hne
        · exact ⟨a, rfl⟩
        · simp at hrow
      rw [merkelizeRow_singleton, rowRoot_singleton]

/-- `merkelize` returns the root of its first row whatever the visitor. -/
theorem merkelize_root [Inhabited Out] (H : Hasher Out) (visitor : Visitor Out V)
    (row : List Out) (v : V) : (merkelize H visitor row v).2 = rowRoot H row := by
  unfold merkelize
  match row with
  | [] => simp [merkelizeRow, merkelizeRowLoop, rowRoot]
  | [a] => rw [merkelizeRow_singleton, rowRoot_singleton]
  | a :: b :: rest =>
    have hrow : 2 ≤ (a :: b :: rest).length := by simp
    rw [merkelizeRow_eq_error H visitor _ v hrow, rowRoot_of_two_le H hrow]
    have hne : parentRow H (a :: b :: rest) ≠ [] := by simp [parentRow]
    simp only [List.isEmpty_eq_false_iff.mpr hne, Bool.false_eq_true, ↓reduceIte]
    exact merkelizeLoop_root H visitor _ _ _ hne (Nat.le_refl _)

theorem merkleRoot_eq [Inhabited Out] (H : Hasher Out) (leaves : List (List UInt8)) :
    merkleRoot H leaves = rowRoot H (leaves.map H.hash) :=
  merkelize_root H Visitor.unit _ ()

/-! ## What `merkle_proof` collects -/

/-- One pass over a row records the sibling of the collector's position,
counted from the index the pass starts at. -/
theorem merkelizeRowLoop_collect (index : Nat) (row next : List Out)
    (c : ProofCollection Out) :
    (merkelizeRowLoop H ProofCollection.visitor index row next c).1 =
      { proof := c.proof ++ if index ≤ c.position then siblingOf row (c.position - index) else [],
        position := c.position } := by
  induction row using parentRow.induct generalizing index next c with
  | case1 a b rest ih =>
    rw [merkelizeRowLoop, ih, ProofCollection.visit_eq]
    simp only [Option.toList_some, List.append_assoc, ProofCollection.mk.injEq, and_true,
      List.append_cancel_left_eq]
    -- the pair at `index` holds the sibling of its two positions, the rest of
    -- the row holds it for every later one
    rcases Nat.lt_or_ge c.position index with hlt | hge
    · simp [show c.position ≠ index by omega, show c.position ≠ index + 1 by omega,
        show ¬ index ≤ c.position by omega, show ¬ index + 2 ≤ c.position by omega]
    · by_cases h0 : c.position = index
      · simp [h0, siblingOf, show ¬ index + 2 ≤ index by omega]
      · by_cases h1 : c.position = index + 1
        · simp [h1, siblingOf, show ¬ index + 2 ≤ index + 1 by omega]
        · obtain ⟨q, hq⟩ : ∃ q, c.position - index = q + 2 := ⟨c.position - index - 2, by omega⟩
          have hsub : c.position - (index + 2) = q := by omega
          simp [h0, h1, hge, show index + 2 ≤ c.position by omega, hq, hsub, siblingOf_cons_cons]
  | case2 a =>
    -- a last single item is visited alone, then possibly two `None`s
    unfold merkelizeRowLoop
    split <;> simp only [ProofCollection.visit_eq, Option.toList_some, Option.toList_none,
        ProofCollection.mk.injEq, and_true, List.append_assoc, List.append_cancel_left_eq] <;>
      rcases Nat.lt_or_ge c.position index with hlt | hge <;>
      simp_all [siblingOf] <;> split_ifs <;> simp_all <;> omega
  | case3 =>
    simp [merkelizeRowLoop, ProofCollection.visit_eq, siblingOf]

/-- The loop records the proof for the position it finds after moving up. -/
theorem merkelizeLoop_collect [Inhabited Out] (H : Hasher Out) (fuel : Nat) (next : List Out)
    (c : ProofCollection Out) (hne : next ≠ []) (hfuel : next.length ≤ fuel)
    (hpos : c.position / 2 < next.length) :
    (merkelizeLoop H ProofCollection.visitor fuel next c).1.proof =
      c.proof ++ rowProof H next (c.position / 2) := by
  induction fuel generalizing next c with
  | zero =>
    have : next.length = 0 := by omega
    exact absurd (List.length_eq_zero_iff.mp this) hne
  | succ fuel ih =>
    rw [merkelizeLoop]
    by_cases hrow : 2 ≤ next.length
    · rw [merkelizeRow_eq_error H _ next _ hrow, rowProof_of_two_le H hrow]
      have hlt := parentRow_length_lt H hrow
      rw [ih _ _ (by simp only [ne_eq, ← List.length_eq_zero_iff, parentRow_length]; omega)
        (by omega)]
      · simp [merkelizeRow, merkelizeRowLoop_collect, ProofCollection.moveUp_eq]
      · simp only [merkelizeRow, merkelizeRowLoop_collect, ProofCollection.moveUp_eq,
          parentRow_length]
        omega
    · obtain ⟨a, rfl⟩ : ∃ a, next = [a] := by
        rcases next with _ | ⟨a, _ | ⟨b, rest⟩⟩
        · exact absurd rfl hne
        · exact ⟨a, rfl⟩
        · simp at hrow
      -- at the root the position is `0` and nothing is recorded
      have hzero : c.position / 2 = 0 := by simpa using hpos
      rw [merkelizeRow_singleton, rowProof_of_length_le_one H (by simp)]
      simp [ProofCollection.visit_eq, ProofCollection.moveUp_eq, hzero]

/-- `merkelize` with the collector records the proof of the starting position. -/
theorem merkelize_collect [Inhabited Out] (H : Hasher Out) (row : List Out)
    (c : ProofCollection Out) (hpos : c.position < row.length) :
    (merkelize H ProofCollection.visitor row c).1.proof = c.proof ++ rowProof H row c.position := by
  unfold merkelize
  rcases row with _ | ⟨a, _ | ⟨b, rest⟩⟩
  · simp at hpos
  · have hzero : c.position = 0 := by simpa using hpos
    rw [merkelizeRow_singleton, rowProof_of_length_le_one H (by simp)]
    simp [ProofCollection.visit_eq, hzero]
  · have hrow : 2 ≤ (a :: b :: rest).length := by simp
    rw [merkelizeRow_eq_error H _ _ c hrow, rowProof_of_two_le H hrow]
    have hne : parentRow H (a :: b :: rest) ≠ [] := by simp [parentRow]
    simp only [List.isEmpty_eq_false_iff.mpr hne, Bool.false_eq_true, ↓reduceIte]
    rw [merkelizeLoop_collect H _ _ _ hne (Nat.le_refl _)]
    · simp [merkelizeRow, merkelizeRowLoop_collect]
    · simp only [merkelizeRow, merkelizeRowLoop_collect, parentRow_length,
        List.length_cons] at hpos ⊢
      omega

/-- `merkle_proof` below the number of leaves: the honest root and the
siblings along the leaf's path. -/
theorem merkleProof_eq [Inhabited Out] (H : Hasher Out) (leaves : List (List UInt8)) (i : Nat)
    (hi : i < leaves.length) :
    merkleProof H leaves i = some
      { root := merkleRoot H leaves, proof := rowProof H (leaves.map H.hash) i,
        numberOfLeaves := leaves.length, leafIndex := i, leaf := leaves[i] } := by
  have hproof := merkelize_collect H (leaves.map H.hash) { proof := [], position := i }
    (by simpa using hi)
  simp only [List.nil_append] at hproof
  simp only [merkleProof, List.getElem?_eq_getElem hi, Option.map_some, hproof, merkleRoot,
    merkelize_root]

/-! ## Completeness of the verifier -/

/-- The fold's position and width agree with the tree's, or both mark their row's last item, or the
fold started one row too low at position `0`. -/
def WidthAgree (pv wv p w : Nat) : Prop :=
  (pv = p ∧ wv = w) ∨ (pv + 1 = wv ∧ p + 1 = w) ∨ (pv = 0 ∧ p = 0 ∧ w ≤ wv)

variable {pv wv p w : Nat}

theorem verifyStep_of_pair (x y : Out)
    (hp : p % 2 = 0) (hnext : p + 1 < w) (hagree : WidthAgree pv wv p w) :
    (verifyStep H (x, pv, wv) y).1 = H.node x y ∧
      WidthAgree (verifyStep H (x, pv, wv) y).2.1 (verifyStep H (x, pv, wv) y).2.2
        (p / 2) ((w + 1) / 2) := by
  have hright : ¬ (pv % 2 = 1 ∨ pv + 1 = wv) := by
    unfold WidthAgree at hagree
    omega
  simp only [verifyStep, Hasher.node, if_neg hright, true_and]
  unfold WidthAgree at hagree ⊢
  omega

/-- At an odd position the fold hashes the item on the right, whether the
widths agree or both mark the last item. -/
theorem verifyStep_of_odd (x y : Out)
    (hp : p % 2 = 1) (hpos : p < w) (hagree : WidthAgree pv wv p w) :
    (verifyStep H (y, pv, wv) x).1 = H.node x y ∧
      WidthAgree (verifyStep H (y, pv, wv) x).2.1 (verifyStep H (y, pv, wv) x).2.2
        (p / 2) ((w + 1) / 2) := by
  have hleft : pv % 2 = 1 ∨ pv + 1 = wv := by
    unfold WidthAgree at hagree
    omega
  simp only [verifyStep, Hasher.node, if_pos hleft, true_and]
  unfold WidthAgree at hagree ⊢
  omega

theorem widthAgree_of_last (hp : p % 2 = 0) (hlast : p + 1 = w)
    (hagree : WidthAgree pv wv p w) : WidthAgree pv wv (p / 2) ((w + 1) / 2) := by
  unfold WidthAgree at hagree ⊢
  omega

/-- Folding the siblings of a position over its item reaches the root of the
row, from any fold state whose width agrees with the row's. -/
theorem foldl_verifyStep_rowProof [Inhabited Out] (H : Hasher Out) (row : List Out) (p : Nat)
    (x : Out) (hx : row[p]? = some x) (pv wv : Nat) (hagree : WidthAgree pv wv p row.length) :
    ((rowProof H row p).foldl (verifyStep H) (x, pv, wv)).1 = rowRoot H row := by
  induction row, p using rowProof.induct H generalizing x pv wv with
  | case1 row p hrow ih =>
    rw [rowProof_of_two_le H hrow, List.foldl_append, rowRoot_of_two_le H hrow]
    have hp : p < row.length := (List.getElem?_eq_some_iff.mp hx).1
    rcases Nat.mod_two_eq_zero_or_one p with heven | hodd
    · by_cases hnext : p + 1 < row.length
      · -- the right neighbour is the sibling
        obtain ⟨y, hy⟩ : ∃ y, row[p + 1]? = some y := ⟨row[p + 1], by simp [hnext]⟩
        have hsib : siblingOf row p = [y] := by simp [siblingOf, heven, hy]
        obtain ⟨hnode, hagree'⟩ := verifyStep_of_pair H x y heven hnext hagree
        rw [hsib, List.foldl_cons, List.foldl_nil]
        rw [show verifyStep H (x, pv, wv) y = (H.node x y, (verifyStep H (x, pv, wv) y).2.1,
          (verifyStep H (x, pv, wv) y).2.2) from Prod.ext hnode rfl]
        exact ih _ (parentRow_getElem?_pair H row p heven x y hx hy) _ _
          (by simpa using hagree')
      · -- the last item is promoted without a sibling
        have hlast : p + 1 = row.length := by omega
        have hsib : siblingOf row p = [] := by
          simp [siblingOf, heven, List.getElem?_eq_none (show row.length ≤ p + 1 by omega)]
        rw [hsib, List.foldl_nil]
        exact ih _ (parentRow_getElem?_last H row p heven hlast x hx) _ _
          (by simpa using widthAgree_of_last heven hlast hagree)
    · -- the left neighbour is the sibling
      obtain ⟨y, hy⟩ : ∃ y, row[p - 1]? = some y := ⟨row[p - 1], by simp [show p - 1 < row.length by omega]⟩
      have hsib : siblingOf row p = [y] := by simp [siblingOf, hodd, hy]
      obtain ⟨hnode, hagree'⟩ := verifyStep_of_odd H y x hodd hp hagree
      rw [hsib, List.foldl_cons, List.foldl_nil]
      rw [show verifyStep H (x, pv, wv) y = (H.node y x, (verifyStep H (x, pv, wv) y).2.1,
        (verifyStep H (x, pv, wv) y).2.2) from Prod.ext hnode rfl]
      exact ih _ (parentRow_getElem?_odd H row p hodd y x hy hx) _ _
        (by simpa using hagree')
  | case2 row p hrow =>
    -- a single item is its own root and has no siblings
    rw [rowProof_of_length_le_one H (by omega)]
    have hp : p < row.length := (List.getElem?_eq_some_iff.mp hx).1
    rcases row with _ | ⟨a, _ | ⟨b, rest⟩⟩
    · simp at hp
    · have hp0 : p = 0 := by simpa using hp
      subst hp0
      simp only [List.getElem?_cons_zero, Option.some.injEq] at hx
      subst hx
      rw [List.foldl_nil, rowRoot_singleton]
    · simp at hrow

/-- The honest proof of a leaf folds from the leaf hash to the honest root. -/
theorem foldl_verifyStep_merkleProof [Inhabited Out] (H : Hasher Out)
    (leaves : List (List UInt8)) (i : Nat) (hi : i < leaves.length) :
    ((rowProof H (leaves.map H.hash) i).foldl (verifyStep H)
      (H.hash leaves[i], i, leaves.length)).1 = merkleRoot H leaves := by
  rw [merkleRoot_eq]
  exact foldl_verifyStep_rowProof H _ i _ (by simp [hi]) _ _ (.inl ⟨rfl, by simp⟩)

/-- Below the number of leaves, `merkle_proof` returns the honest root, the leaf and the siblings
along its path, and `verify_proof` accepts the leaf. -/
theorem merkleProof_verifies [DecidableEq Out] [Inhabited Out] (H : Hasher Out)
    (leaves : List (List UInt8)) (i : Nat) (hi : i < leaves.length) :
    (∃ proof, merkleProof H leaves i = some proof ∧ proof.root = merkleRoot H leaves ∧
      proof.numberOfLeaves = leaves.length ∧ proof.leaf = leaves[i] ∧
      proof.proof = rowProof H (leaves.map H.hash) i ∧
      verifyProof H proof.root proof.proof proof.numberOfLeaves i (.value proof.leaf) = true) ∧
    ∀ (row : List Out) (p : Nat), 2 ≤ row.length → p < row.length →
      rowProof H row p = siblingOf row p ++ rowProof H (parentRow H row) (p / 2) ∧
        (siblingOf row p).length = if p % 2 = 0 ∧ p + 1 = row.length then 0 else 1 := by
  refine ⟨⟨_, merkleProof_eq H leaves i hi, rfl, rfl, rfl, rfl, ?_⟩,
    fun row p hrow hp => ⟨rowProof_of_two_le H hrow p, siblingOf_length hp⟩⟩
  rw [verifyProof, if_neg (Nat.not_le_of_lt hi), decide_eq_true_eq]
  exact (foldl_verifyStep_merkleProof H leaves i hi).symm

/-! ## Soundness for proofs of the honest length -/

/-- Under an injective hasher whose outputs split uniquely, equally long folds from one position and
width that reach one hash started from one hash. -/
theorem foldl_verifyStep_inj (hinj : Function.Injective H.hash)
    (hsplit : ∀ a b c d : Out, H.asRef a ++ H.asRef b = H.asRef c ++ H.asRef d → a = c ∧ b = d) :
    ∀ (items items' : List Out) (x x' : Out) (pos width : Nat),
      items.length = items'.length →
      (items.foldl (verifyStep H) (x, pos, width)).1 =
        (items'.foldl (verifyStep H) (x', pos, width)).1 → x = x'
  | [], [], _, _, _, _, _, h => h
  | b :: items, b' :: items', x, x', pos, width, hlen, h => by
    simp only [List.foldl_cons, List.length_cons, Nat.add_right_cancel_iff] at h hlen
    have hstep := hinj (foldl_verifyStep_inj hinj hsplit items items' _ _ _ _ hlen h)
    by_cases hleft : pos % 2 = 1 ∨ pos + 1 = width
    · simp only [if_pos hleft] at hstep
      exact (hsplit _ _ _ _ hstep).2
    · simp only [if_neg hleft] at hstep
      exact (hsplit _ _ _ _ hstep).1

/-- A proof with as many items as the honest one authenticates only the
stored leaf, for an injective hasher whose outputs split uniquely. -/
theorem verifyProof_sound_of_honest_length [DecidableEq Out] [Inhabited Out] (H : Hasher Out)
    (hinj : Function.Injective H.hash)
    (hsplit : ∀ a b c d : Out, H.asRef a ++ H.asRef b = H.asRef c ++ H.asRef d → a = c ∧ b = d)
    (leaves : List (List UInt8)) (i : Nat) (honest : MerkleProof Out)
    (hhonest : merkleProof H leaves i = some honest) (proof : List Out)
    (hlen : proof.length = honest.proof.length) (v : List UInt8)
    (hverify : verifyProof H (merkleRoot H leaves) proof leaves.length i (.value v) = true) :
    leaves[i]? = some v := by
  have hi : i < leaves.length := by
    by_contra hge
    simp [merkleProof, List.getElem?_eq_none (Nat.le_of_not_lt hge)] at hhonest
  rw [merkleProof_eq H leaves i hi, Option.some.injEq] at hhonest
  subst hhonest
  simp only [verifyProof, if_neg (Nat.not_le_of_lt hi), decide_eq_true_eq] at hverify
  -- the forged fold and the honest fold meet at the root
  have hmeet := hverify.symm.trans (foldl_verifyStep_merkleProof H leaves i hi).symm
  have hleaf := hinj (foldl_verifyStep_inj H hinj hsplit _ _ _ _ _ _ hlen hmeet)
  simp [hleaf]

/-- The identity, with each output written behind a unary length prefix: an
injective hasher whose concatenated outputs split uniquely. -/
def prefixedHasher : Hasher (List UInt8) where
  hash := id
  asRef o := List.replicate o.length 1 ++ 0 :: o

theorem replicate_one_append_zero_inj (m k : Nat) (s t : List UInt8)
    (h : List.replicate m 1 ++ 0 :: s = List.replicate k 1 ++ 0 :: t) : m = k ∧ s = t := by
  induction m generalizing k with
  | zero =>
    cases k with
    | zero => simpa using h
    | succ k => simp [List.replicate_succ] at h
  | succ m ih =>
    cases k with
    | zero => simp [List.replicate_succ] at h
    | succ k =>
      simp only [List.replicate_succ, List.cons_append, List.cons.injEq, true_and] at h
      obtain ⟨hmk, hst⟩ := ih k h
      exact ⟨by omega, hst⟩

theorem prefixedHasher_split (a b c d : List UInt8)
    (h : prefixedHasher.asRef a ++ prefixedHasher.asRef b =
      prefixedHasher.asRef c ++ prefixedHasher.asRef d) : a = c ∧ b = d := by
  simp only [prefixedHasher, List.append_assoc, List.cons_append] at h
  obtain ⟨hlen, hrest⟩ := replicate_one_append_zero_inj _ _ _ _ h
  obtain ⟨hac, hbd⟩ := List.append_inj hrest hlen
  exact ⟨hac, (replicate_one_append_zero_inj _ _ _ _ hbd).2⟩

theorem verifyProof_sound_of_honest_length_two_leaves :
    ([[1], [2]] : List (List UInt8))[0]? = some [1] :=
  verifyProof_sound_of_honest_length prefixedHasher Function.injective_id prefixedHasher_split
    [[1], [2]] 0 ⟨merkleRoot prefixedHasher [[1], [2]], [[2]], 2, 0, [1]⟩ rfl [[2]] rfl [1]
    (by decide)

/-- The promoted third leaf of three verifies with its one-sibling proof. -/
theorem merkleProof_verifies_last_of_three :
    ∃ proof, merkleProof prefixedHasher [[1], [2], [3]] 2 = some proof ∧
      verifyProof prefixedHasher proof.root proof.proof 3 2 (.value [3]) = true := by
  obtain ⟨⟨proof, hproof, -, hn, hleaf, -, hverify⟩, -⟩ :=
    merkleProof_verifies prefixedHasher [[1], [2], [3]] 2 (by decide)
  rw [hn, hleaf] at hverify
  exact ⟨proof, hproof, hverify⟩

/-! ## Inner nodes are accepted as leaves -/

/-- Dropping the first sibling of leaf `0`'s honest proof authenticates the concatenation of the
first two leaf hashes as leaf `0`, for every hasher and tree of two or more leaves. -/
theorem verifyProof_inner_node [DecidableEq Out] [Inhabited Out] (H : Hasher Out)
    (leaves : List (List UInt8)) (l0 l1 : List UInt8) (rest : List (List UInt8))
    (hleaves : leaves = l0 :: l1 :: rest) (honest : MerkleProof Out)
    (hhonest : merkleProof H leaves 0 = some honest) :
    verifyProof H honest.root honest.proof.tail leaves.length 0
      (.value (H.asRef (H.hash l0) ++ H.asRef (H.hash l1))) = true := by
  subst hleaves
  rw [merkleProof_eq H _ 0 (by simp), Option.some.injEq] at hhonest
  subst hhonest
  have hrow : 2 ≤ ((l0 :: l1 :: rest).map H.hash).length := by simp
  rw [verifyProof, if_neg (by simp), decide_eq_true_eq, rowProof_of_two_le H hrow,
    merkleRoot_eq, rowRoot_of_two_le H hrow]
  have hsib : siblingOf ((l0 :: l1 :: rest).map H.hash) 0 = [H.hash l1] := by simp [siblingOf]
  rw [hsib, List.cons_append, List.nil_append, List.tail_cons]
  -- the forged leaf hashes to the leftmost node one row up, where the fold
  -- starts with the width of the leaf row
  refine (foldl_verifyStep_rowProof H _ 0 _ ?_ 0 _ ?_).symm
  · exact parentRow_getElem?_pair H _ 0 rfl _ _ rfl rfl
  · refine .inr (.inr ⟨rfl, rfl, ?_⟩)
    simp only [parentRow_length, List.length_map, List.length_cons]
    omega

/-- A verifier that accepts a leaf other than the stored one, against the
honest root of two leaves, under the injective hasher `prefixedHasher`. -/
theorem verifyProof_accepts_inner_node :
    Function.Injective prefixedHasher.hash ∧
      verifyProof prefixedHasher (merkleRoot prefixedHasher [[0], [1]]) [] 2 0
        (.value [1, 0, 0, 1, 0, 1]) = true ∧
      ([[0], [1]] : List (List UInt8))[0]? ≠ some [1, 0, 0, 1, 0, 1] :=
  ⟨Function.injective_id,
    verifyProof_inner_node prefixedHasher [[0], [1]] [0] [1] [] rfl _ rfl, by decide⟩

end Substrate.Merkle
