import Mathlib

/-! # Decoders over a cursor

A fallible state transformer over a list and a position. `ReadsAt` and `Reads` say what a decoder
makes of an encoding, `Spans` that it accepts nothing else; all compose along `bind` and `mapM`.
-/

/-- A list and the position read up to. -/
structure Cursor (α : Type) where
  data : List α
  offset : Nat
  deriving DecidableEq, Repr

namespace Cursor

variable {α : Type}

def advance (c : Cursor α) (n : Nat) : Cursor α := ⟨c.data, c.offset + n⟩

@[simp] theorem advance_data (c : Cursor α) (n : Nat) : (c.advance n).data = c.data := rfl

@[simp] theorem advance_offset (c : Cursor α) (n : Nat) : (c.advance n).offset = c.offset + n :=
  rfl

end Cursor

abbrev Decoder (α ε β : Type) := StateT (Cursor α) (Except ε) β

namespace Decoder

variable {α ε β γ : Type} {d : Decoder α ε β} {f : β → Decoder α ε γ} {o : Nat}

/-- From position `o` the decoder reads `v` from exactly the elements `w`, whatever follows
them. -/
def ReadsAt (d : Decoder α ε β) (o : Nat) (w : List α) (v : β) : Prop :=
  ∀ data rest, o ≤ data.length → data.drop o = w ++ rest →
    d ⟨data, o⟩ = .ok (v, ⟨data, o + w.length⟩)

/-- From position `o`, in a list with `P`, the decoder reads exactly the elements `w`, into a value
of which `Q` holds with that list. -/
def Reads (P : List α → Prop) (d : Decoder α ε β) (o : Nat) (w : List α)
    (Q : List α → β → Prop) : Prop :=
  ∀ data rest, o ≤ data.length → data.drop o = w ++ rest → P data →
    ∃ v, d ⟨data, o⟩ = .ok (v, ⟨data, o + w.length⟩) ∧ Q data v

/-- Whatever the decoder accepts from a cursor `c`, it read from elements `w` right at `c`'s
position, with `P c v w` of its value `v`. -/
def Spans (d : Decoder α ε β) (P : Cursor α → β → List α → Prop) : Prop :=
  ∀ data o v c, d ⟨data, o⟩ = .ok (v, c) →
    ∃ w, c = ⟨data, o + w.length⟩ ∧ data.drop o = w ++ data.drop (o + w.length) ∧ P ⟨data, o⟩ v w

def slice (data : List α) (range : Nat × Nat) : List α := (data.drop range.1).take (range.2 - range.1)

/-- A `bind` accepts when its first decoder does and the second accepts from where the first
stopped. -/
theorem bind_eq_ok {c c' : Cursor α} {v : γ} :
    (d >>= f) c = .ok (v, c') ↔ ∃ v₁ c₁, d c = .ok (v₁, c₁) ∧ f v₁ c₁ = .ok (v, c') := by
  show (d c >>= fun p => f p.1 p.2) = _ ↔ _
  cases h : d c with
  | error e => simp [bind, Except.bind]
  | ok p =>
    obtain ⟨v₁, c₁⟩ := p
    simp [bind, Except.bind]

theorem bind_of_ok {c c₁ : Cursor α} {v₁ : β}
    (h : d c = .ok (v₁, c₁)) : (d >>= f) c = f v₁ c₁ := by
  show (d c >>= fun p => f p.1 p.2) = _
  rw [h]
  rfl

/-! ## Reading an encoding -/

theorem readsAt_pure (o : Nat) (v : β) : ReadsAt (pure v : Decoder α ε β) o [] v := by
  intro data rest _ _
  rfl

variable {data w rest : List α}

theorem drop_add_of_drop_eq (h : data.drop o = w ++ rest) :
    data.drop (o + w.length) = rest := by
  rw [← List.drop_drop, h, List.drop_left]

theorem le_length_of_drop_eq (ho : o ≤ data.length)
    (h : data.drop o = w ++ rest) : o + w.length ≤ data.length := by
  have hlen := congrArg List.length h
  rw [List.length_drop, List.length_append] at hlen
  omega

theorem ReadsAt.bind {w₁ w₂ : List α}
    {v₁ : β} {v₂ : γ} (hd : ReadsAt d o w₁ v₁) (hf : ReadsAt (f v₁) (o + w₁.length) w₂ v₂) :
    ReadsAt (d >>= f) o (w₁ ++ w₂) v₂ := by
  intro data rest ho hdata
  have hdata₁ : data.drop o = w₁ ++ (w₂ ++ rest) := by rw [hdata, List.append_assoc]
  rw [bind_of_ok (hd data _ ho hdata₁),
    hf data rest (le_length_of_drop_eq ho hdata₁) (drop_add_of_drop_eq hdata₁),
    List.length_append, Nat.add_assoc]

theorem ReadsAt.congr {w w' : List α} {v v' : β}
    (hd : ReadsAt d o w v) (hw : w = w') (hv : v = v') : ReadsAt d o w' v' := by
  subst hw hv
  exact hd

/-! ## Reading a value that points into the list -/

section Reads

variable {P P' : List α → Prop}

theorem ReadsAt.reads (P : List α → Prop) {w : List α} {v : β}
    (hd : ReadsAt d o w v) : Reads P d o w fun _ x => x = v :=
  fun data rest ho hdata _ => ⟨v, hd data rest ho hdata, rfl⟩

theorem Reads.imp {w : List α} {Q R : List α → β → Prop}
    (hd : Reads P d o w Q) (hQR : ∀ data v, P data → Q data v → R data v) : Reads P d o w R := by
  intro data rest ho hdata hP
  obtain ⟨v, hv, hQ⟩ := hd data rest ho hdata hP
  exact ⟨v, hv, hQR data v hP hQ⟩

theorem Reads.mono {w : List α} {Q : List α → β → Prop}
    (hd : Reads P d o w Q) (hP : ∀ data, P' data → P data) : Reads P' d o w Q :=
  fun data rest ho hdata hP' => hd data rest ho hdata (hP data hP')

theorem Reads.congr {w w' : List α} {Q : List α → β → Prop}
    (hd : Reads P d o w Q) (hw : w = w') : Reads P d o w' Q := by
  subst hw
  exact hd

/-- The second decoder reads in a list of which the first one's value holds. -/
theorem Reads.bind {w₁ w₂ : List α}
    {Q₁ : List α → β → Prop} {Q₂ : List α → γ → Prop} (hd : Reads P d o w₁ Q₁)
    (hf : ∀ v, Reads (fun data => P data ∧ Q₁ data v) (f v) (o + w₁.length) w₂ Q₂) :
    Reads P (d >>= f) o (w₁ ++ w₂) Q₂ := by
  intro data rest ho hdata hP
  have hdata₁ : data.drop o = w₁ ++ (w₂ ++ rest) := by rw [hdata, List.append_assoc]
  obtain ⟨v₁, hv₁, hQ₁⟩ := hd data _ ho hdata₁ hP
  obtain ⟨v₂, hv₂, hQ₂⟩ :=
    hf v₁ data rest (le_length_of_drop_eq ho hdata₁) (drop_add_of_drop_eq hdata₁) ⟨hP, hQ₁⟩
  refine ⟨v₂, ?_, hQ₂⟩
  rw [bind_of_ok hv₁, hv₂, List.length_append, Nat.add_assoc]

/-- The second decoder after a first one whose value is known. -/
theorem Reads.bind_eq {w₁ w₂ : List α}
    {v₁ : β} {Q₂ : List α → γ → Prop} (hd : Reads P d o w₁ fun _ x => x = v₁)
    (hf : Reads P (f v₁) (o + w₁.length) w₂ Q₂) : Reads P (d >>= f) o (w₁ ++ w₂) Q₂ := by
  refine hd.bind fun v => ?_
  rintro data rest ho hdata ⟨hP, rfl⟩
  exact hf data rest ho hdata hP

theorem reads_get (P : List α → Prop) (o : Nat) :
    Reads P (get : Decoder α ε (Cursor α)) o [] fun data c => c = ⟨data, o⟩ :=
  fun _ _ _ _ _ => ⟨_, rfl, rfl⟩

/-- A lifted result is read from nothing, where the list makes it a success. -/
theorem reads_lift {e : Except ε β} {v : β} (h : ∀ data, P data → e = .ok v) (o : Nat) :
    Reads P (monadLift e : Decoder α ε β) o [] fun _ x => x = v := by
  intro data _ _ _ hP
  rw [h data hP]
  exact ⟨v, rfl, rfl⟩

/-- A loop of decoders reads the concatenation of what each reads, into values each of which
satisfies its own property. -/
theorem reads_mapM {f : γ → Decoder α ε β} {enc : γ → List α} {Q : γ → List α → β → Prop} :
    ∀ (xs : List γ), (∀ x ∈ xs, ∀ o, Reads P (f x) o (enc x) (Q x)) → ∀ o,
      Reads P (xs.mapM f) o (xs.flatMap enc) fun data vs =>
        List.Forall₂ (fun x v => Q x data v) xs vs
  | [], _, o => by
    refine ((readsAt_pure o []).reads P).imp ?_
    rintro _ _ _ rfl
    exact List.Forall₂.nil
  | x :: xs, hf, o => by
    have hrest := reads_mapM xs (fun y hy => hf y (List.mem_cons_of_mem x hy)) (o + (enc x).length)
    rw [List.mapM_cons, List.flatMap_cons]
    refine (hf x List.mem_cons_self o).bind fun v => ?_
    refine ((hrest.mono fun _ h => h.1).bind fun vs =>
      ((readsAt_pure _ (v :: vs)).reads _).imp ?_).congr (List.append_nil _)
    rintro data _ ⟨⟨_, hv⟩, hvs⟩ rfl
    exact List.Forall₂.cons hv hvs

/-- Reading in every list a value that the list does not change is reading that value. -/
theorem readsAt_of_reads {w : List α} {v : β}
    (hd : Reads (fun _ => True) d o w fun _ x => x = v) : ReadsAt d o w v := by
  intro data rest ho hdata
  obtain ⟨x, hx, rfl⟩ := hd data rest ho hdata trivial
  exact hx

end Reads

/-! ## Accepting nothing else -/

theorem spans_pure (v : β) : Spans (pure v : Decoder α ε β) fun _ x w => x = v ∧ w = [] := by
  intro data o x c h
  cases h
  exact ⟨[], rfl, by simp, rfl, rfl⟩

theorem spans_throw (e : ε) (P : Cursor α → β → List α → Prop) :
    Spans (throw e : Decoder α ε β) P := by
  intro data o v c h
  cases h

theorem spans_get : Spans (get : Decoder α ε (Cursor α)) fun c v w => v = c ∧ w = [] := by
  intro data o v c h
  cases h
  exact ⟨[], rfl, by simp, rfl, rfl⟩

theorem spans_lift (e : Except ε β) :
    Spans (monadLift e : Decoder α ε β) fun _ v w => e = .ok v ∧ w = [] := by
  intro data o v c h
  cases he : e with
  | error e' =>
    rw [he] at h
    cases h
  | ok x =>
    rw [he] at h
    cases h
    exact ⟨[], rfl, by simp, rfl, rfl⟩

theorem Spans.imp {P Q : Cursor α → β → List α → Prop} (hd : Spans d P)
    (hPQ : ∀ c v w, P c v w → Q c v w) : Spans d Q := by
  intro data o v c h
  obtain ⟨w, hc, hdata, hP⟩ := hd data o v c h
  exact ⟨w, hc, hdata, hPQ _ v w hP⟩

theorem slice_of_drop_eq (h : data.drop o = w ++ rest) :
    slice data (o, o + w.length) = w := by
  rw [slice, h, Nat.add_sub_cancel_left, List.take_left]

/-- What a decoder read lies within the list. -/
theorem Spans.within {P : Cursor α → β → List α → Prop} (hd : Spans d P) :
    Spans d fun c v w => P c v w ∧ (w ≠ [] → c.offset + w.length ≤ c.data.length) := by
  intro data o v c h
  obtain ⟨w, hc, hdata, hP⟩ := hd data o v c h
  refine ⟨w, hc, hdata, hP, fun hw => show o + w.length ≤ data.length from ?_⟩
  have hpos : 0 < w.length := List.length_pos_iff.mpr hw
  have hlen := congrArg List.length hdata
  rw [List.length_drop, List.length_append, List.length_drop] at hlen
  omega

/-- What a decoder read is the slice of the list from its start to its end. -/
theorem Spans.slice {P : Cursor α → β → List α → Prop} (hd : Spans d P) :
    Spans d fun c v w => P c v w ∧ Decoder.slice c.data (c.offset, c.offset + w.length) = w := by
  intro data o v c h
  obtain ⟨w, hc, hdata, hP⟩ := hd data o v c h
  exact ⟨w, hc, hdata, hP, slice_of_drop_eq hdata⟩

theorem spans_ite_throw (c : Prop) [Decidable c] (e : ε) (x : β) :
    Spans (if c then throw e else pure x : Decoder α ε β) fun _ v w => ¬c ∧ v = x ∧ w = [] := by
  split
  · exact spans_throw e _
  · next hc => exact (spans_pure x).imp fun _ _ _ ⟨hv, hw⟩ => ⟨hc, hv, hw⟩

theorem Spans.bind {P : Cursor α → β → List α → Prop}
    {Q : β → Cursor α → γ → List α → Prop} (hd : Spans d P) (hf : ∀ v, Spans (f v) (Q v)) :
    Spans (d >>= f) fun c v w =>
      ∃ v₁ w₁ w₂, w = w₁ ++ w₂ ∧ P c v₁ w₁ ∧ Q v₁ (c.advance w₁.length) v w₂ := by
  intro data o v c h
  obtain ⟨v₁, c₁, h₁, h₂⟩ := bind_eq_ok.mp h
  obtain ⟨w₁, rfl, hdata₁, hP⟩ := hd data o v₁ c₁ h₁
  obtain ⟨w₂, rfl, hdata₂, hQ⟩ := hf v₁ data (o + w₁.length) v c h₂
  refine ⟨w₁ ++ w₂, by rw [List.length_append, Nat.add_assoc], ?_, v₁, w₁, w₂, rfl, hP, hQ⟩
  rw [hdata₁, hdata₂, List.append_assoc, List.length_append, Nat.add_assoc]

/-- A loop of decoders, each of which read what its value and the list determine, read the
concatenation of those. -/
theorem spans_mapM {f : γ → Decoder α ε β} {Q : γ → List α → β → Prop} {g : List α → β → List α}
    (hf : ∀ x, Spans (f x) fun c v w => Q x c.data v ∧ w = g c.data v) :
    ∀ xs : List γ, Spans (xs.mapM f) fun c vs w =>
      List.Forall₂ (fun x v => Q x c.data v) xs vs ∧ w = (vs.map (g c.data)).flatten
  | [] => (spans_pure []).imp fun _ _ _ ⟨hvs, hw⟩ => by
    rw [hvs, hw]
    exact ⟨List.Forall₂.nil, rfl⟩
  | x :: xs => by
    rw [List.mapM_cons]
    refine ((hf x).bind fun v => (spans_mapM hf xs).bind fun vs => spans_pure (v :: vs)).imp ?_
    rintro c _ _ ⟨v, w₁, _, rfl, ⟨hv, rfl⟩, vs, w₂, _, rfl, ⟨hvs, rfl⟩, rfl, rfl⟩
    refine ⟨List.Forall₂.cons hv hvs, ?_⟩
    rw [List.map_cons, List.flatten_cons, List.append_nil]
    rfl

/-! ## Codecs -/

/-- A value where a flag says there is one, `flag.then(|| decode).transpose()`; nothing is read
where there is none. -/
def decodeIf (flag : Bool) (d : Decoder α ε β) : Decoder α ε (Option β) :=
  if flag then do return some (← d) else pure none

/-- A codec of `β` over lists of `α`: what `Encode` writes and the `Decode` that reads it. -/
structure Codec (α ε β : Type) where
  encode : β → List α
  decode : Decoder α ε β

namespace Codec

/-- A canonical codec reads back what it writes, whatever follows it, and accepts nothing but
what it writes. -/
structure Canonical (c : Codec α ε β) : Prop where
  readsAt : ∀ x o, ReadsAt c.decode o (c.encode x) x
  spans : Spans c.decode fun _ v w => w = c.encode v

def prod (c₁ : Codec α ε β) (c₂ : Codec α ε γ) : Codec α ε (β × γ) where
  encode p := c₁.encode p.1 ++ c₂.encode p.2
  decode := do
    let a ← c₁.decode
    let b ← c₂.decode
    return (a, b)

theorem Canonical.prod {c₁ : Codec α ε β} {c₂ : Codec α ε γ} (h₁ : c₁.Canonical)
    (h₂ : c₂.Canonical) : (c₁.prod c₂).Canonical where
  readsAt x o :=
    ((h₁.readsAt x.1 o).bind ((h₂.readsAt x.2 _).bind (readsAt_pure _ x))).congr
      (List.append_nil _ ▸ rfl) rfl
  spans := (h₁.spans.bind fun a => h₂.spans.bind fun b => spans_pure (a, b)).imp <| by
    rintro _ _ _ ⟨a, w₁, _, rfl, rfl, b, w₂, _, rfl, rfl, rfl, rfl⟩
    rw [List.append_nil]
    rfl

variable {c : Codec α ε β}

/-- A value is read where the flag says so, from its encoding. -/
theorem Canonical.readsAt_decodeIf (h : c.Canonical) :
    ∀ (x : Option β) (o : Nat), ReadsAt (decodeIf x.isSome c.decode) o (x.elim [] c.encode) x
  | none, o => readsAt_pure o none
  | some v, o => ((h.readsAt v o).bind (readsAt_pure _ (some v))).congr (List.append_nil _) rfl

theorem Canonical.spans_decodeIf (h : c.Canonical) (flag : Bool) :
    Spans (decodeIf flag c.decode) fun _ x w => x.isSome = flag ∧ w = x.elim [] c.encode := by
  rw [decodeIf]
  split
  · next hflag =>
      refine (h.spans.bind fun v => spans_pure (some v)).imp ?_
      rintro _ _ _ ⟨v, w₁, _, rfl, rfl, rfl, rfl⟩
      exact ⟨hflag.symm, List.append_nil _⟩
  · next hflag =>
      refine (spans_pure none).imp ?_
      rintro _ _ _ ⟨rfl, rfl⟩
      exact ⟨by simpa using hflag, rfl⟩

end Codec

end Decoder
