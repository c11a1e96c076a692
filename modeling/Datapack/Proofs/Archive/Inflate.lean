import Datapack.Archive.Inflate

/-!
# Every item takes a bit

The loops over the blocks of a stream and over the items of a block are bounded by the number of bits that are
left.  No reader gives bits back, and whatever starts an item or a block takes at least one, so that the bounds
are never met: what a stream inflates to does not depend on them.
-/

namespace Datapack.Archive

namespace Inflate

/-! ## Bits that are left -/

/-- The number of bits that are left. -/
def Source.size (s : Source) : Nat := s.bits.length + 8 * s.bytes.length

/-- A reader that takes at least so many bits whenever it succeeds. -/
def Takes {α : Type} (count : Nat) (r : Reader α) : Prop :=
  ∀ s a s', r s = .ok (a, s') → s'.size + count ≤ s.size

section

variable {α β : Type} {n count : Nat} {r : Reader α} {c : Code} {s s' : Source}

theorem Takes.zero (hr : Takes n r) : Takes 0 r := fun s a s' hs =>
  Nat.le_of_add_right_le (hr s a s' hs)

theorem takes_pure (a : α) : Takes 0 (pure a : Reader α) := fun s b s' h => by
  obtain ⟨-, rfl⟩ := Prod.mk.inj (Except.ok.inj h)
  exact Nat.le_refl _

theorem takes_corrupt : Takes n (corrupt : Reader α) := fun _ _ _ h => nomatch h

theorem Takes.bind {f : α → Reader β} (hr : Takes n r) (hf : ∀ a, Takes 0 (f a)) :
    Takes n (r >>= f) := fun s b s' h => by
  change (do let (a, t) ← r s; f a t) = .ok (b, s') at h
  cases hfirst : r s with
  | error fault =>
      rw [hfirst] at h
      exact nomatch h
  | ok p =>
      obtain ⟨a, t⟩ := p
      rw [hfirst] at h
      have h₁ := hr s a t hfirst
      have h₂ := hf a t b s' h
      omega

theorem bind_congr_of_ok {f g : α → Reader β} (h : ∀ s a s', r s = .ok (a, s') → f a s' = g a s') :
    (r >>= f) = (r >>= g) := by
  funext s
  change (r s >>= fun p => f p.1 p.2) = (r s >>= fun p => g p.1 p.2)
  cases hr : r s with
  | error fault => rfl
  | ok p => exact h s p.1 p.2 hr

theorem size_drop {bits : List Bool} (h : n ≤ bits.length) (offset : Nat) (bytes : List UInt8) :
    Source.size { bits := bits.drop n, offset, bytes } + n = bits.length + 8 * bytes.length := by
  change (bits.drop n).length + 8 * bytes.length + n = _
  rw [List.length_drop]
  omega

theorem length_bitsOf (b : UInt8) : (bitsOf b).length = 8 := by
  rw [bitsOf, List.length_map, List.length_range]

theorem size_fill {bits : List Bool} {offset : Nat} {bytes : List UInt8}
    (h : fill count bits offset bytes = .ok s) :
    s.size = bits.length + 8 * bytes.length ∧ count ≤ s.bits.length := by
  induction bytes generalizing bits offset with
  | nil =>
      unfold fill at h
      split at h
      · next hcount =>
          obtain rfl := Except.ok.inj h
          exact ⟨rfl, hcount⟩
      · exact nomatch h
  | cons b bytes ih =>
      unfold fill at h
      split at h
      · next hcount =>
          obtain rfl := Except.ok.inj h
          exact ⟨rfl, hcount⟩
      · obtain ⟨hsize, hcount⟩ := ih h
        rw [List.length_append, length_bitsOf] at hsize
        refine ⟨?_, hcount⟩
        rw [hsize, List.length_cons]
        omega

theorem takeBits_apply (count : Nat) (s : Source) :
    takeBits count s = (fill count s.bits s.offset s.bytes).map fun t =>
      (t.bits.take count, { t with bits := t.bits.drop count }) := by
  change (fill count s.bits s.offset s.bytes >>= _) = _
  cases fill count s.bits s.offset s.bytes <;> rfl

theorem number_apply (count : Nat) (s : Source) :
    number count s = (fill count s.bits s.offset s.bytes).map fun t =>
      (valueOf (t.bits.take count), { t with bits := t.bits.drop count }) := by
  change (takeBits count s >>= fun p => (pure (valueOf p.1) : Reader Nat) p.2) = _
  rw [takeBits_apply]
  cases fill count s.bits s.offset s.bytes <;> rfl

theorem takes_takeBits (count : Nat) : Takes count (takeBits count) := fun s bits s' h => by
  rw [takeBits_apply] at h
  cases hfill : fill count s.bits s.offset s.bytes with
  | error fault =>
      rw [hfill] at h
      exact nomatch h
  | ok t =>
      rw [hfill] at h
      obtain ⟨-, rfl⟩ := Prod.mk.inj (Except.ok.inj h)
      obtain ⟨hsize, hcount⟩ := size_fill hfill
      exact Nat.le_of_eq ((size_drop hcount t.offset t.bytes).trans hsize)

theorem takes_number (count : Nat) : Takes count (number count) :=
  (takes_takeBits count).bind fun bits => takes_pure (valueOf bits)

theorem takes_numbers (width count : Nat) : Takes 0 (numbers width count) := by
  induction count with
  | zero => exact takes_pure []
  | succ count ih =>
      exact (takes_number width).zero.bind fun n => ih.bind fun ns => takes_pure (n :: ns)

/-! ## Symbols -/

theorem pos_of_lookUp {counts symbols : List Nat} {rank symbol : Nat} {bits : List Bool}
    (h : lookUp counts symbols rank bits = some (symbol, n)) : 0 < n := by
  induction counts generalizing symbols rank bits n with
  | nil => exact nomatch h
  | cons count counts ih =>
      cases bits with
      | nil => exact nomatch h
      | cons bit bits =>
          unfold lookUp at h
          dsimp only at h
          split at h
          · obtain ⟨_, -, hn⟩ := Option.map_eq_some_iff.1 h
            cases hn
            exact Nat.one_pos
          · obtain ⟨p, -, hn⟩ := Option.map_eq_some_iff.1 h
            cases hn
            exact Nat.succ_pos _

theorem look_eq_symbol {wanted symbol : Nat} {bits : List Bool}
    (h : c.look wanted bits = .symbol symbol n) : 0 < n ∧ n ≤ bits.length := by
  unfold Code.look at h
  split at h
  · exact nomatch h
  · split at h
    · exact nomatch h
    · next found hfound =>
        split at h
        · next hle =>
            cases h
            exact ⟨pos_of_lookUp hfound, hle⟩
        · exact nomatch h

theorem size_findFrom {wanted offset symbol : Nat} {bits : List Bool} {bytes : List UInt8}
    (h : c.findFrom wanted bits offset bytes = .ok (symbol, s)) :
    s.size + 1 ≤ bits.length + 8 * bytes.length := by
  induction bytes generalizing wanted bits offset with
  | nil =>
      unfold Code.findFrom at h
      split at h
      · exact nomatch h
      · next hlook =>
          obtain ⟨-, rfl⟩ := Prod.mk.inj (Except.ok.inj h)
          obtain ⟨hpos, hle⟩ := look_eq_symbol hlook
          have := size_drop hle offset []
          omega
      · exact nomatch h
  | cons b bytes ih =>
      unfold Code.findFrom at h
      split at h
      · exact nomatch h
      · next hlook =>
          obtain ⟨-, rfl⟩ := Prod.mk.inj (Except.ok.inj h)
          obtain ⟨hpos, hle⟩ := look_eq_symbol hlook
          have := size_drop hle offset (b :: bytes)
          omega
      · have := ih h
        rw [List.length_append, length_bitsOf] at this
        rw [List.length_cons]
        omega

theorem takes_next (c : Code) : Takes 1 c.next := fun _ _ _ h => size_findFrom h

theorem takes_fixedDistance : Takes 0 fixedDistance :=
  (takes_takeBits 5).zero.bind fun bits => takes_pure (valueOf bits.reverse)

theorem takes_repetition (symbol : Nat) (last? : Option Nat) : Takes 0 (repetition symbol last?) := by
  have hnumber (width : Nat) (f : Nat → Nat × Nat) : Takes 0 (number width >>= fun n => pure (f n)) :=
    (takes_number width).zero.bind fun n => takes_pure (f n)
  unfold repetition
  split
  · split
    · exact takes_corrupt
    · exact hnumber 2 _
  · exact hnumber 3 _
  · exact hnumber 7 _
  · exact takes_pure _

theorem takes_readLengths (c : Code) (fuel missing : Nat) (lengths : List Nat) :
    Takes 0 (readLengths c fuel missing lengths) := by
  induction fuel generalizing missing lengths with
  | zero => exact takes_pure _
  | succ fuel ih =>
      unfold readLengths
      split
      · exact takes_pure _
      · refine (takes_next c).zero.bind fun symbol => (takes_repetition symbol _).bind fun p => ?_
        dsimp only
        split
        · exact takes_corrupt
        · exact ih _ _

/-- A symbol of the code for lengths stands for one length at least. -/
theorem pos_of_repetition {symbol length times : Nat} {last? : Option Nat}
    (h : repetition symbol last? s = .ok ((length, times), s')) : 0 < times := by
  have hnumber (least width value : Nat) (hleast : 0 < least)
      (h : (number width >>= fun n => pure (value, least + n)) s = .ok ((length, times), s')) :
      0 < times := by
    change (number width s >>= fun p => (pure (value, least + p.1) : Reader (Nat × Nat)) p.2) = _ at h
    cases hn : number width s with
    | error fault =>
        rw [hn] at h
        exact nomatch h
    | ok p =>
        rw [hn] at h
        cases h
        omega
  unfold repetition at h
  split at h
  · split at h
    · exact nomatch h
    · exact hnumber 3 2 _ (by decide) h
  · exact hnumber 3 3 0 (by decide) h
  · exact hnumber 11 7 0 (by decide) h
  · cases h
    exact Nat.one_pos

/-- The bound on the lengths that are read is never met. -/
theorem readLengths_of_le {fuel fuel' missing : Nat} (h : missing ≤ fuel) (h' : missing ≤ fuel')
    (lengths : List Nat) : readLengths c fuel missing lengths = readLengths c fuel' missing lengths := by
  induction fuel generalizing fuel' missing lengths with
  | zero =>
      obtain rfl := Nat.le_zero.1 h
      cases fuel' <;> rfl
  | succ fuel ih =>
      cases fuel' with
      | zero =>
          obtain rfl := Nat.le_zero.1 h'
          rfl
      | succ fuel' =>
          unfold readLengths
          split
          · rfl
          · next hmissing =>
              refine congrArg _ (funext fun symbol => bind_congr_of_ok fun s p s' hp => ?_)
              obtain ⟨length, times⟩ := p
              have hpos := pos_of_repetition hp
              have hrest : readLengths c fuel (missing - times) (List.replicate times length ++ lengths) =
                  readLengths c fuel' (missing - times) (List.replicate times length ++ lengths) :=
                ih (by omega) (by omega) _
              dsimp only
              rw [hrest]

theorem takes_readCodes : Takes 0 readCodes := by
  unfold readCodes
  refine (takes_number 14).zero.bind fun n => ?_
  dsimp only
  split
  · exact takes_corrupt
  · refine (takes_numbers 3 _).bind fun given => ?_
    split
    · refine (takes_readLengths _ _ _ _).bind fun lengths => ?_
      split
      · split
        · exact takes_pure _
        · exact takes_corrupt
      · exact takes_corrupt
    · exact takes_corrupt

/-! ## Items -/

theorem takes_distanceOf (symbol : Nat) : Takes 0 (distanceOf symbol) := by
  unfold distanceOf
  split
  · exact takes_pure _
  · split
    · exact (takes_number _).zero.bind fun n => takes_pure _
    · exact takes_corrupt

/-- The symbol of an item has at least one bit. -/
theorem takes_readItem {distance : Reader Nat} (hdistance : Takes 0 distance) :
    Takes 1 (readItem c distance) := by
  unfold readItem
  refine (takes_next c).bind fun symbol => ?_
  split
  · exact takes_pure _
  · split
    · exact takes_pure _
    · split
      · exact (takes_number _).zero.bind fun n => hdistance.bind fun back =>
          (takes_distanceOf back).bind fun far => takes_pure _
      · exact takes_corrupt

section

variable {distance : Reader Nat} {o o' : Output} {fuel fuel' : Nat}

theorem size_putItems (hdistance : Takes 0 distance)
    (h : putItems c distance fuel o s = (o', .ok s')) : s'.size ≤ s.size := by
  induction fuel generalizing o s with
  | zero => exact nomatch h
  | succ fuel ih =>
      unfold putItems at h
      split at h
      · exact nomatch h
      · next hitem =>
          cases h
          exact (takes_readItem hdistance).zero s _ _ hitem
      · next b s₁ hitem => exact Nat.le_trans (ih h) ((takes_readItem hdistance).zero s _ s₁ hitem)
      · next length back s₁ hitem =>
          split at h
          · exact nomatch h
          · exact Nat.le_trans (ih h) ((takes_readItem hdistance).zero s _ s₁ hitem)

/-- The bound on the items of a block is never met. -/
theorem putItems_of_size_lt (hdistance : Takes 0 distance) (h : s.size < fuel) (h' : s.size < fuel') :
    putItems c distance fuel o s = putItems c distance fuel' o s := by
  induction fuel generalizing fuel' o s with
  | zero => exact absurd h (Nat.not_lt_zero _)
  | succ fuel ih =>
      cases fuel' with
      | zero => exact absurd h' (Nat.not_lt_zero _)
      | succ fuel' =>
          unfold putItems
          cases hitem : readItem c distance s with
          | error fault => rfl
          | ok p =>
              obtain ⟨item, s₁⟩ := p
              have hless : s₁.size + 1 ≤ s.size := takes_readItem hdistance s item s₁ hitem
              have hrest (o : Output) : putItems c distance fuel o s₁ = putItems c distance fuel' o s₁ :=
                ih (by omega) (by omega)
              cases item with
              | stop => rfl
              | byte b => exact hrest _
              | copy length back =>
                  dsimp only
                  rw [hrest]

/-! ## Blocks -/

theorem size_putStored {isLast : Bool} (h : putStored isLast o s = (o', .ok s')) : s'.size ≤ s.size := by
  unfold putStored at h
  split at h
  · next hbytes =>
      have hsize := congrArg List.length hbytes
      simp only [List.length_cons] at hsize
      dsimp only at h
      unfold Source.size
      split at h
      · exact nomatch h
      · split at h
        · cases h
          dsimp only [List.length_nil]
          omega
        · split at h
          · exact nomatch h
          · cases h
            rw [List.length_drop, List.length_nil]
            omega
  · exact nomatch h

theorem size_putBlock {kind : Nat} {isLast : Bool} (h : putBlock kind isLast o s = (o', .ok s')) :
    s'.size ≤ s.size := by
  unfold putBlock at h
  dsimp only at h
  split at h
  · exact size_putStored h
  · split at h
    · exact nomatch h
    · exact size_putItems takes_fixedDistance h
  · split at h
    · exact nomatch h
    · next hcodes =>
        exact Nat.le_trans (size_putItems (takes_next _).zero h) (takes_readCodes s _ _ hcodes)
  · exact nomatch h

/-- The bound on the blocks of a stream is never met. -/
theorem putBlocks_of_size_lt (h : s.size < fuel) (h' : s.size < fuel') :
    putBlocks fuel o s = putBlocks fuel' o s := by
  induction fuel generalizing fuel' o s with
  | zero => exact absurd h (Nat.not_lt_zero _)
  | succ fuel ih =>
      cases fuel' with
      | zero => exact absurd h' (Nat.not_lt_zero _)
      | succ fuel' =>
          unfold putBlocks
          cases hhead : number 3 s with
          | error fault => rfl
          | ok p =>
              obtain ⟨n, s₁⟩ := p
              have hless : s₁.size + 3 ≤ s.size := takes_number 3 s n s₁ hhead
              dsimp only
              cases hblock : putBlock (n / 2) (n % 2 = 1) o s₁ with
              | mk o₁ result =>
                  cases result with
                  | error fault => rfl
                  | ok s₂ =>
                      have hrest : putBlocks fuel o₁ s₂ = putBlocks fuel' o₁ s₂ := by
                        have := size_putBlock hblock
                        exact ih (by omega) (by omega)
                      dsimp only
                      rw [hrest]

end

end

/-! ## Stored bytes -/

/-- All bytes that were put out, whether they are handed on or not. -/
def Output.bytes (o : Output) : List UInt8 := o.blocks.reverse.flatten ++ o.pending.reverse

theorem Output.bytes_flush (o : Output) : o.flush.bytes = o.bytes := by
  unfold flush
  split
  · rfl
  · change (o.pending.reverse :: o.blocks).reverse.flatten ++ [] = _
    rw [List.append_nil, List.reverse_cons, List.flatten_append, List.flatten_singleton]
    rfl

theorem Output.bytes_put (o : Output) (b : UInt8) : (o.put b).bytes = o.bytes ++ [b] := by
  have hnext (history : List UInt8) (size : Nat) :
      Output.bytes { history, size, pending := b :: o.pending, blocks := o.blocks } = o.bytes ++ [b] := by
    change o.blocks.reverse.flatten ++ (b :: o.pending).reverse = _
    rw [List.reverse_cons, ← List.append_assoc]
    rfl
  unfold put
  dsimp only
  split
  · rw [bytes_flush, hnext]
  · rw [hnext]

theorem Output.bytes_foldl_put (o : Output) (bs : List UInt8) : (bs.foldl put o).bytes = o.bytes ++ bs := by
  induction bs generalizing o with
  | nil => exact (List.append_nil _).symm
  | cons b bs ih => rw [List.foldl_cons, ih, bytes_put, List.append_assoc, List.singleton_append]

/-- A block that stores bytes, fewer than 2 ^ 16 of them. -/
def storedBlock (isLast : Bool) (chunk : List UInt8) : List UInt8 :=
  let low := chunk.length % 256
  let high := chunk.length / 256
  UInt8.ofNat isLast.toNat :: UInt8.ofNat low :: UInt8.ofNat high :: UInt8.ofNat (255 - low)
    :: UInt8.ofNat (255 - high) :: chunk

/-- A stream that stores bytes in chunks and ends with an empty block. -/
def storedStream : List (List UInt8) → List UInt8
  | [] => storedBlock true []
  | chunk :: chunks => storedBlock false chunk ++ storedStream chunks

theorem length_le_storedStream (chunks : List (List UInt8)) :
    chunks.length ≤ (storedStream chunks).length := by
  induction chunks with
  | nil => exact Nat.zero_le _
  | cons chunk chunks ih =>
      change chunks.length + 1 ≤ (storedBlock false chunk ++ storedStream chunks).length
      rw [List.length_append]
      have : 0 < (storedBlock false chunk).length := Nat.succ_pos _
      omega

theorem number_storedBlock (isLast : Bool) (offset : Nat) (bytes : List UInt8) :
    number 3 { offset, bytes := UInt8.ofNat isLast.toNat :: bytes } =
      .ok (isLast.toNat, { bits := List.replicate 5 false, offset := offset + 1, bytes }) := by
  have hbits : [] ++ bitsOf (UInt8.ofNat isLast.toNat) = isLast :: List.replicate 7 false := by
    cases isLast <;> decide
  have hfill : fill 3 [] offset (UInt8.ofNat isLast.toNat :: bytes) =
      .ok { bits := isLast :: List.replicate 7 false, offset := offset + 1, bytes } := by
    rw [fill, if_neg (by decide), hbits]
    cases bytes <;> rfl
  rw [number_apply, hfill]
  cases isLast <;> rfl

theorem putStored_storedBlock (isLast : Bool) (o : Output) (bits : List Bool) (offset : Nat)
    {chunk : List UInt8} (rest : List UInt8) (hlength : chunk.length < 0x10000) :
    ∃ o' offset', putStored isLast o { bits, offset, bytes := (storedBlock isLast chunk).tail ++ rest } =
        (o', .ok { offset := offset', bytes := rest }) ∧
      o'.bytes = o.bytes ++ chunk := by
  have hbyte {n : Nat} (h : n < 256) : (UInt8.ofNat n).toNat = n := UInt8.toNat_ofNat_of_lt' h
  have hlow : chunk.length % 256 < 256 := by omega
  have hhigh : chunk.length / 256 < 256 := by omega
  have hlow' : 255 - chunk.length % 256 < 256 := by omega
  have hhigh' : 255 - chunk.length / 256 < 256 := by omega
  unfold putStored storedBlock
  dsimp only [List.tail_cons, List.cons_append]
  rw [hbyte hlow, hbyte hhigh, hbyte hlow', hbyte hhigh', if_neg (by omega), Nat.mod_add_div]
  split
  · next hempty =>
      obtain rfl := List.length_eq_zero_iff.1 hempty
      refine ⟨_, _, rfl, ?_⟩
      rw [List.append_nil]
      cases isLast with
      | false => exact o.bytes_flush
      | true => rfl
  · rw [List.take_left, List.drop_left, if_neg (by simp)]
    exact ⟨_, _, rfl, o.bytes_foldl_put chunk⟩

theorem putBlocks_storedBlock (isLast : Bool) (fuel : Nat) (o : Output) (offset : Nat)
    {chunk : List UInt8} (rest : List UInt8) (hlength : chunk.length < 0x10000) :
    ∃ o' offset', putBlocks (fuel + 1) o { offset, bytes := storedBlock isLast chunk ++ rest } =
        (if isLast then (o', none) else putBlocks fuel o' { offset := offset', bytes := rest }) ∧
      o'.bytes = o.bytes ++ chunk := by
  obtain ⟨o', offset', hstored, hbytes⟩ := putStored_storedBlock isLast o
    (List.replicate 5 false) (offset + 1) rest hlength
  refine ⟨o', offset', ?_, hbytes⟩
  have hhead : number 3 { offset, bytes := storedBlock isLast chunk ++ rest } =
      .ok (isLast.toNat,
        { bits := List.replicate 5 false
          offset := offset + 1
          bytes := (storedBlock isLast chunk).tail ++ rest }) :=
    number_storedBlock isLast offset _
  have hblock (s : Source) : putBlock 0 isLast o s = putStored isLast o s := rfl
  have hkind : isLast.toNat / 2 = 0 := by cases isLast <;> rfl
  have hlast : decide (isLast.toNat % 2 = 1) = isLast := by cases isLast <;> rfl
  rw [putBlocks, hhead]
  dsimp only
  rw [hkind, hlast, hblock, hstored]
  cases isLast <;> rfl

theorem putBlocks_storedStream {chunks : List (List UInt8)} (o : Output) (offset : Nat)
    (hlength : ∀ chunk ∈ chunks, chunk.length < 0x10000) (hfuel : chunks.length < fuel) :
    ∃ o', putBlocks fuel o { offset, bytes := storedStream chunks } = (o', none) ∧
      o'.bytes = o.bytes ++ chunks.flatten := by
  induction chunks generalizing fuel o offset with
  | nil =>
      obtain ⟨fuel, rfl⟩ := Nat.exists_eq_succ_of_ne_zero (Nat.ne_zero_of_lt hfuel)
      have hempty : ([] : List UInt8).length < 0x10000 := by decide
      obtain ⟨o', _, hput, hbytes⟩ := putBlocks_storedBlock true fuel o offset [] hempty
      exact ⟨o', hput, hbytes⟩
  | cons chunk chunks ih =>
      obtain ⟨fuel, rfl⟩ := Nat.exists_eq_succ_of_ne_zero (Nat.ne_zero_of_lt hfuel)
      obtain ⟨hchunk, hchunks⟩ := List.forall_mem_cons.1 hlength
      obtain ⟨o₁, offset₁, hput, hbytes⟩ := putBlocks_storedBlock false fuel o offset
        (storedStream chunks) hchunk
      obtain ⟨o', hrest, hbytes'⟩ := ih o₁ offset₁ hchunks (Nat.lt_of_succ_lt_succ hfuel)
      refine ⟨o', hput.trans hrest, ?_⟩
      rw [hbytes', hbytes, List.flatten_cons, List.append_assoc]

end Inflate

/-- What a stream inflates to does not depend on the number of blocks that are admitted, as long as there may be
one for each bit. -/
theorem inflate_eq {stream : List UInt8} {fuel : Nat} (h : 8 * stream.length < fuel) :
    inflate stream =
      let (o, fault) := Inflate.putBlocks fuel {} { bytes := stream }
      (o.blocks.reverse, o.pending.reverse, fault) := by
  have hsize : Inflate.Source.size { bytes := stream } = 8 * stream.length := Nat.zero_add _
  rw [inflate, Inflate.putBlocks_of_size_lt (hsize ▸ Nat.lt_succ_self _) (hsize ▸ h)]

/-- Stored bytes come out as they are. -/
theorem inflate_storedStream {chunks : List (List UInt8)} (h : ∀ chunk ∈ chunks, chunk.length < 0x10000) :
    ∃ blocks rest, inflate (Inflate.storedStream chunks) = (blocks, rest, none) ∧
      blocks.flatten ++ rest = chunks.flatten := by
  have hfuel : chunks.length < 8 * (Inflate.storedStream chunks).length + 1 := by
    have := Inflate.length_le_storedStream chunks
    omega
  obtain ⟨o, hput, hbytes⟩ := Inflate.putBlocks_storedStream {} 0 h hfuel
  refine ⟨_, _, ?_, hbytes⟩
  rw [inflate, hput]

end Datapack.Archive
