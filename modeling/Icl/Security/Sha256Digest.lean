import Icl.Security.Sha256
import Icl.Security.ShaTwo

namespace Icl.Security

open Icl.Cxx Icl.Format Icl.Transition

/-!
# The digest of `sha256.c`

* `updateRet_took` — what a context has taken in is its hash value of whole blocks, and what stands
  in front of its buffer;
* `finishRet_eq` — the padding, in one block or in two;
* `computes_mbedtls` — `Sha256` gives the digest of FIPS 180-4, whatever the parts;
* `hmacCompute_mbedtls` — `hmac_compute` is HMAC-SHA256.
-/

namespace Sha256

/-- A block of bytes, compressed. -/
def compressBytes (v : Fips180.Hash256) (block : Bytes) : Fips180.Hash256 :=
  Fips180.compress256 v (Fips180.words block)

/-! ### What a context has taken in -/

namespace Context

/-- The bytes that have been counted. -/
def count (ctx : Context) : Nat := ctx.total₁.toNat * 2 ^ 32 + ctx.total₀.toNat

/-- How many bytes fill no block yet. -/
def used (ctx : Context) : Nat := ctx.total₀.toNat % 64

/-- These bytes. -/
def front (ctx : Context) : Bytes := ctx.buffer.bytes.take ctx.used

/-- Less than a block is waiting in the buffer. -/
theorem used_lt (ctx : Context) : ctx.used < 64 := Nat.mod_lt _ (by decide)

/-- The bytes that wait are as many as `used` says. -/
theorem length_front (ctx : Context) : ctx.front.length = ctx.used := by
  have hused := ctx.used_lt
  rw [front, List.length_take, ctx.buffer.size]
  omega

/-- The mask of the source. -/
theorem masked_eq (ctx : Context) : (ctx.total₀ &&& 0x3F).toNat = ctx.used := by
  rw [UInt32.toNat_and]
  exact Nat.and_two_pow_sub_one_eq_mod _ 6

/-- What becomes of a context that takes a text in.  Of the number of bytes the lower half is
    counted. -/
structure Took (ctx : Context) (text : Bytes) (ctx' : Context) : Prop where
  state_eq : hash ctx'.state = foldBlocks 64 compressBytes (hash ctx.state) (ctx.front ++ text)
  front_eq : ctx'.front = pending 64 (ctx.front ++ text)
  count_eq : ctx'.count = (ctx.count + text.length % 2 ^ 32) % 2 ^ 64
  is224_eq : ctx'.is224 = ctx.is224

end Context

/-! ### `mbedtls_sha256_update_ret` -/

/-- A whole block is read where 64 bytes are left. -/
theorem readBlock_of_le {input : Bytes} (h : 64 ≤ input.length) :
    readBlock input = .ok ⟨input.take 64, List.length_take_of_le h⟩ :=
  dif_pos h

/-- **The loop over whole blocks.** -/
theorem loop_blocks (ctx : Context) (input : Bytes) {fuel : Nat} (hfuel : input.length < fuel) :
    ∃ state, loop updateTurn fuel (ctx, input) = .ok ({ ctx with state }, pending 64 input) ∧
      hash state = foldBlocks 64 compressBytes (hash ctx.state) input := by
  induction fuel generalizing ctx input with
  | zero => omega
  | succ fuel ih =>
    -- The loop takes whole blocks as long as there is one.
    by_cases hmore : 64 ≤ input.length
    · have hturn : updateTurn (ctx, input)
          = .ok (.next (process ctx ⟨input.take 64, List.length_take_of_le hmore⟩,
              input.drop 64)) := by
        unfold updateTurn
        dsimp only
        rw [if_pos hmore, readBlock_of_le hmore]
        rfl
      have hdrop : (input.drop 64).length < fuel := by
        rw [List.length_drop]
        omega
      have htake : (input.take 64).length = 64 := List.length_take_of_le hmore
      obtain ⟨state, hloop, hstate⟩ := ih _ _ hdrop
      have hsplit : input = input.take 64 ++ input.drop 64 := (List.take_append_drop 64 input).symm
      refine ⟨state, ?_, ?_⟩
      · rw [loop_next hturn, hloop]
        conv_rhs => rw [hsplit, pending_block (by decide) htake]
        rfl
      · conv_rhs => rw [hsplit, foldBlocks_block (by decide) htake]
        rw [hstate, process_hash]
        rfl
    · have hturn : updateTurn (ctx, input) = .ok (.stop (ctx, input)) := by
        unfold updateTurn
        dsimp only
        rw [if_neg hmore]
        rfl
      refine ⟨ctx.state, ?_, ?_⟩
      · rw [loop_stop hturn, pending_of_lt (by omega)]
      · rw [foldBlocks_of_lt (by omega)]

/-- What fills no block is copied behind what stands in the buffer. -/
theorem copy_rest (ctx : Context) {left : Nat} {rest : Bytes} (h : left + rest.length ≤ 64) :
    ∃ buffer : Buffer 64,
      (if rest.length > 0 then do
          let buffer ← ctx.buffer.write left rest
          return { ctx with buffer }
        else return ctx : Except Fault Context) = .ok { ctx with buffer } ∧
      buffer.bytes.take (left + rest.length) = ctx.buffer.bytes.take left ++ rest := by
  by_cases hrest : rest.length > 0
  · refine ⟨ctx.buffer.put left rest h, ?_, ctx.buffer.take_put h⟩
    rw [if_pos hrest, Buffer.write_of_le _ h]
    rfl
  · obtain rfl := List.length_eq_zero_iff.mp (Nat.eq_zero_of_not_pos hrest)
    exact ⟨ctx.buffer, if_neg hrest, (List.append_nil _).symm⟩

/-- The counter, with its carry. -/
theorem count_add (total₀ total₁ : UInt32) (n : Nat) :
    (if total₀ + UInt32.ofNat n < UInt32.ofNat n then total₁ + 1 else total₁).toNat * 2 ^ 32
        + (total₀ + UInt32.ofNat n).toNat
      = (total₁.toNat * 2 ^ 32 + total₀.toNat + n % 2 ^ 32) % 2 ^ 64 := by
  have h₀ := total₀.toNat_lt
  have h₁ := total₁.toNat_lt
  have hsum : (total₀ + UInt32.ofNat n).toNat = (total₀.toNat + n % 2 ^ 32) % 2 ^ 32 := by
    rw [UInt32.toNat_add, UInt32.toNat_ofNat']
  by_cases hcarry : total₀ + UInt32.ofNat n < UInt32.ofNat n
  · have hlt := UInt32.lt_iff_toNat_lt.mp hcarry
    rw [hsum, UInt32.toNat_ofNat'] at hlt
    rw [if_pos hcarry, hsum, UInt32.toNat_add, UInt32.toNat_one]
    omega
  · have hle := Nat.le_of_not_lt (UInt32.lt_iff_toNat_lt.not.mp hcarry)
    rw [hsum, UInt32.toNat_ofNat'] at hle
    rw [if_neg hcarry, hsum]
    omega

/-- The rest of `mbedtls_sha256_update_ret`, behind the part that fills the buffer up. -/
theorem update_blocks (ctx : Context) (left : Nat) (input : Bytes)
    (h : left + (pending 64 input).length ≤ 64) :
    ∃ (state : Vector UInt32 8) (buffer : Buffer 64),
      (do
        let (ctx, input) ← loop updateTurn (input.length + 1) (ctx, input)
        if input.length > 0 then
          let buffer ← ctx.buffer.write left input
          return { ctx with buffer }
        else return ctx : Except Fault Context) = .ok { ctx with state, buffer } ∧
      hash state = foldBlocks 64 compressBytes (hash ctx.state) input ∧
      buffer.bytes.take (left + (pending 64 input).length)
        = ctx.buffer.bytes.take left ++ pending 64 input := by
  obtain ⟨state, hloop, hstate⟩ := loop_blocks ctx input (Nat.lt_succ_self _)
  obtain ⟨buffer, hcopy, hbuffer⟩ := copy_rest { ctx with state } h
  refine ⟨state, buffer, ?_, hstate, hbuffer⟩
  rw [hloop, ok_bind]
  exact hcopy

namespace Context

/-- The context with `n` bytes more on its counter. -/
def counting (ctx : Context) (n : Nat) : Context :=
  { ctx with
    total₀ := ctx.total₀ + UInt32.ofNat n
    total₁ :=
      if ctx.total₀ + UInt32.ofNat n < UInt32.ofNat n then ctx.total₁ + 1 else ctx.total₁ }

/-- Of the number of bytes the lower half is counted. -/
theorem counting_count (ctx : Context) (n : Nat) :
    (ctx.counting n).count = (ctx.count + n % 2 ^ 32) % 2 ^ 64 := count_add _ _ _

/-- The counter says how much is left at the end. -/
theorem counting_used (ctx : Context) (text : Bytes) :
    (ctx.counting text.length).used = (ctx.front ++ text).length % 64 := by
  rw [List.length_append, ctx.length_front]
  show (ctx.total₀ + UInt32.ofNat text.length).toNat % 64 = (ctx.used + text.length) % 64
  rw [UInt32.toNat_add, UInt32.toNat_ofNat', used]
  omega

/-- Nothing is taken in. -/
theorem took_nil (ctx : Context) : ctx.Took [] ctx := by
  have hshort : ctx.front.length < 64 := by
    rw [ctx.length_front]
    exact ctx.used_lt
  have hcount : ctx.count < 2 ^ 64 := by
    have h₀ := ctx.total₀.toNat_lt
    have h₁ := ctx.total₁.toNat_lt
    unfold count
    omega
  refine ⟨?_, ?_, ?_, rfl⟩
  · rw [List.append_nil, foldBlocks_of_lt hshort]
  · rw [List.append_nil, pending_of_lt hshort]
  · rw [List.length_nil, Nat.zero_mod, Nat.add_zero, Nat.mod_eq_of_lt hcount]

/-- With nothing in the buffer, or too little to fill it up, the buffer is no part of a block. -/
theorem front_aside (ctx : Context) {text : Bytes}
    (h : ¬ (ctx.used ≠ 0 ∧ 64 - ctx.used ≤ text.length)) (v : Fips180.Hash256) :
    foldBlocks 64 compressBytes v (ctx.front ++ text) = foldBlocks 64 compressBytes v text ∧
      pending 64 (ctx.front ++ text) = ctx.front ++ pending 64 text := by
  have hfront := ctx.length_front
  by_cases hzero : ctx.used = 0
  · have hnil : ctx.front = [] := List.length_eq_zero_iff.mp (hfront.trans hzero)
    rw [hnil]
    exact ⟨rfl, rfl⟩
  · have hshort : text.length < 64 - ctx.used := by
      by_contra hlong
      exact h ⟨hzero, by omega⟩
    have hboth : (ctx.front ++ text).length < 64 := by
      rw [List.length_append]
      omega
    rw [foldBlocks_of_lt hboth, foldBlocks_of_lt (by omega), pending_of_lt hboth,
      pending_of_lt (by omega)]
    exact ⟨rfl, rfl⟩

end Context

/-- A text that does not fill the buffer up is taken in by itself. -/
theorem updateRet_aside {ctx : Context} {text : Bytes} (hsome : text.length ≠ 0)
    (h : ¬ (ctx.used ≠ 0 ∧ 64 - ctx.used ≤ text.length)) :
    ∃ ctx', updateRet ctx text = .ok ctx' ∧ ctx.Took text ctx' := by
  have hused := ctx.used_lt
  have hleft := ctx.counting_used text
  obtain ⟨hfold, hpending⟩ := ctx.front_aside h (hash ctx.state)
  have hlength := length_pending 64 (ctx.front ++ text)
  have hmod := Nat.mod_lt (ctx.front ++ text).length (show 0 < 64 by decide)
  rw [hpending, List.length_append, ctx.length_front] at hlength
  obtain ⟨state, buffer, hrun, hstate, hbuffer⟩ :=
    update_blocks (ctx.counting text.length) ctx.used text (by omega)
  refine ⟨{ ctx.counting text.length with state, buffer }, ?_, ?_, ?_,
    ctx.counting_count text.length, rfl⟩
  · unfold updateRet
    rw [if_neg hsome]
    dsimp only
    rw [Context.masked_eq, if_neg h, pure_eq_ok, ok_bind]
    exact hrun
  · exact hstate.trans hfold.symm
  · show buffer.bytes.take (ctx.counting text.length).used = _
    rw [hleft, ← hlength, hpending]
    exact hbuffer

/-- A text that fills the buffer up: the full buffer is one block, and the rest is taken in behind
    it. -/
theorem updateRet_fill {ctx : Context} {text : Bytes} (hsome : text.length ≠ 0)
    (h : ctx.used ≠ 0 ∧ 64 - ctx.used ≤ text.length) :
    ∃ ctx', updateRet ctx text = .ok ctx' ∧ ctx.Took text ctx' := by
  have hused := ctx.used_lt
  have hleft := ctx.counting_used text
  have htake : (text.take (64 - ctx.used)).length = 64 - ctx.used := List.length_take_of_le h.2
  have hroom : ctx.used + (text.take (64 - ctx.used)).length ≤ 64 := by omega
  obtain ⟨filled, hfilled⟩ : ∃ b, b = ctx.buffer.put ctx.used (text.take (64 - ctx.used)) hroom :=
    ⟨_, rfl⟩
  have hbytes : filled.bytes = ctx.front ++ text.take (64 - ctx.used) := by
    have hall := ctx.buffer.take_put hroom
    rw [← hfilled, htake, show ctx.used + (64 - ctx.used) = 64 by omega,
      List.take_of_length_le filled.size.le] at hall
    exact hall
  have hblock : (ctx.front ++ text.take (64 - ctx.used)).length = 64 := by
    rw [← hbytes, filled.size]
  have hsplit : ctx.front ++ text
      = (ctx.front ++ text.take (64 - ctx.used)) ++ text.drop (64 - ctx.used) := by
    rw [List.append_assoc, List.take_append_drop]
  have hrest := length_pending 64 (text.drop (64 - ctx.used))
  have hmod := Nat.mod_lt (text.drop (64 - ctx.used)).length (show 0 < 64 by decide)
  obtain ⟨state, buffer, hrun, hstate, hbuffer⟩ := update_blocks
    (process { ctx.counting text.length with buffer := filled } filled) 0
    (text.drop (64 - ctx.used)) (by omega)
  rw [Nat.zero_add] at hbuffer
  refine ⟨{ ctx.counting text.length with state, buffer }, ?_, ?_, ?_,
    ctx.counting_count text.length, rfl⟩
  · unfold updateRet
    rw [if_neg hsome]
    dsimp only
    rw [Context.masked_eq, if_pos h, Buffer.write_of_le _ hroom, ← hfilled, ok_bind, pure_eq_ok,
      ok_bind]
    exact hrun
  · rw [hsplit, foldBlocks_block (by decide) hblock]
    refine hstate.trans ?_
    rw [process_hash, hbytes]
    rfl
  · show buffer.bytes.take (ctx.counting text.length).used = _
    rw [hleft, ← length_pending, hsplit, pending_block (by decide) hblock, hbuffer]
    rfl

/-- **`mbedtls_sha256_update_ret` takes a text in.** -/
theorem updateRet_took (ctx : Context) (text : Bytes) :
    ∃ ctx', updateRet ctx text = .ok ctx' ∧ ctx.Took text ctx' := by
  by_cases hempty : text.length = 0
  · obtain rfl := List.length_eq_zero_iff.mp hempty
    exact ⟨ctx, rfl, ctx.took_nil⟩
  · by_cases hfill : ctx.used ≠ 0 ∧ 64 - ctx.used ≤ text.length
    · exact updateRet_fill hempty hfill
    · exact updateRet_aside hempty hfill

/-! ### `mbedtls_sha256_finish_ret` -/

/-- `PUT_UINT32_BE` writes four bytes, most significant first. -/
theorem putUint32Be_eq (n : UInt32) : putUint32Be n = bytesBe 4 n.toNat :=
  Sha1.shiftedBytes_eq n

/-- A byte keeps the number modulo 256. -/
theorem ofNat_congr {x y : Nat} (h : x % 256 = y % 256) : UInt8.ofNat x = UInt8.ofNat y := by
  apply UInt8.toNat_inj.mp
  rw [UInt8.toNat_ofNat', UInt8.toNat_ofNat', h]

/-- The bytes of a number of 64 bits are those of its two halves. -/
theorem bytesBe_halves {v high low : Nat} (hhigh : high = v / 2 ^ 32 % 2 ^ 32)
    (hlow : low = v % 2 ^ 32) : bytesBe 4 high ++ bytesBe 4 low = bytesBe 8 v := by
  have hzero : ∀ v, bytesBe 0 v = [] := fun _ => rfl
  simp only [bytesBe_succ, hzero, List.nil_append, List.cons_append, List.cons.injEq,
    and_true]
  refine ⟨?_, ?_, ?_, ?_, ?_, ?_, ?_, ?_⟩ <;> apply ofNat_congr <;> omega

/-- The two words of the length. -/
theorem lengthBytes_eq (ctx : Context) :
    putUint32Be (ctx.total₀ >>> 29 ||| ctx.total₁ <<< 3) ++ putUint32Be (ctx.total₀ <<< 3)
      = bytesBe 8 (8 * ctx.count) := by
  have h₀ := ctx.total₀.toNat_lt
  have hlow : (ctx.total₀ <<< 3).toNat = ctx.total₀.toNat * 8 % 2 ^ 32 := by
    rw [UInt32.toNat_shiftLeft]
    exact congrArg (· % 2 ^ 32) (Nat.shiftLeft_eq _ 3)
  have hshifted : (ctx.total₀ >>> 29).toNat = ctx.total₀.toNat / 2 ^ 29 := by
    rw [UInt32.toNat_shiftRight]
    exact Nat.shiftRight_eq_div_pow _ 29
  have hupper : (ctx.total₁ <<< 3).toNat = ctx.total₁.toNat % 2 ^ 29 * 8 := by
    rw [UInt32.toNat_shiftLeft]
    refine (congrArg (· % 2 ^ 32) (Nat.shiftLeft_eq _ 3)).trans ?_
    omega
  -- The upper bits of the one and the lower bits of the other do not overlap.
  have hhigh : (ctx.total₀ >>> 29 ||| ctx.total₁ <<< 3).toNat
      = ctx.total₁.toNat % 2 ^ 29 * 8 + ctx.total₀.toNat / 2 ^ 29 := by
    have hsmall : ctx.total₀.toNat / 2 ^ 29 < 2 ^ 3 := by omega
    have hor := Nat.shiftLeft_add_eq_or_of_lt hsmall (ctx.total₁.toNat % 2 ^ 29)
    rw [Nat.shiftLeft_eq] at hor
    rw [UInt32.toNat_or, hshifted, hupper, Nat.or_comm]
    exact hor.symm
  rw [putUint32Be_eq, putUint32Be_eq]
  apply bytesBe_halves
  · rw [hhigh, Context.count]
    omega
  · rw [hlow, Context.count]
    omega

/-- What follows the last bytes of a message: a one bit, zero bits, and the number of its bits. -/
def tail (used count : Nat) : Bytes :=
  0x80 :: (List.replicate (Fips180.zeros used) 0 ++ bytesBe 8 (8 * count))

/-- The padding up to the length, in one block or in two. -/
theorem addPadding_eq (ctx : Context) :
    ∃ ctx', addPadding ctx = .ok ctx' ∧
      ctx'.total₀ = ctx.total₀ ∧ ctx'.total₁ = ctx.total₁ ∧ ctx'.is224 = ctx.is224 ∧
      ∀ length : Bytes, length.length = 8 →
        foldBlocks 64 compressBytes (hash ctx'.state) (ctx'.buffer.bytes.take 56 ++ length)
          = foldBlocks 64 compressBytes (hash ctx.state)
              (ctx.front ++ 0x80 :: (List.replicate (Fips180.zeros ctx.used) 0 ++ length)) := by
  have hused := ctx.used_lt
  have hmark : ctx.used + [(0x80 : UInt8)].length ≤ 64 := hused
  have hmarked := ctx.buffer.take_put hmark
  obtain ⟨marked, hdef⟩ : ∃ b, b = ctx.buffer.put ctx.used [0x80] hmark := ⟨_, rfl⟩
  rw [← hdef] at hmarked
  unfold addPadding
  dsimp only
  rw [ctx.masked_eq, Buffer.write_of_le _ hmark, ← hdef, ok_bind]
  -- Either the length fits behind the mark, or the block is finished with zeros and one more
  -- begins.
  by_cases hshort : ctx.used + 1 ≤ 56
  · have hroom : ctx.used + 1 + (List.replicate (56 - (ctx.used + 1)) (0 : UInt8)).length ≤ 64 := by
      rw [List.length_replicate]
      omega
    have hfilled := marked.take_put hroom
    refine ⟨{ ctx with buffer := marked.put (ctx.used + 1) _ hroom }, ?_, rfl, rfl, rfl, ?_⟩
    · rw [if_pos hshort, Buffer.write_of_le _ hroom, ok_bind]
      rfl
    · intro length _
      rw [List.length_replicate, show ctx.used + 1 + (56 - (ctx.used + 1)) = 56 by omega] at hfilled
      show foldBlocks 64 compressBytes (hash ctx.state)
        ((marked.put (ctx.used + 1) _ hroom).bytes.take 56 ++ length) = _
      rw [hfilled, show marked.bytes.take (ctx.used + 1) = _ from hmarked, Fips180.zeros,
        show (119 - ctx.used % 64) % 64 = 56 - (ctx.used + 1) by omega, Context.front]
      simp only [List.append_assoc, List.cons_append, List.nil_append]
  · have hroom : ctx.used + 1 + (List.replicate (64 - (ctx.used + 1)) (0 : UInt8)).length ≤ 64 := by
      rw [List.length_replicate]
      omega
    have hfilled := marked.take_put hroom
    obtain ⟨filled, hfilledDef⟩ : ∃ b, b = marked.put (ctx.used + 1) _ hroom := ⟨_, rfl⟩
    rw [← hfilledDef, List.length_replicate,
      show ctx.used + 1 + (64 - (ctx.used + 1)) = 64 by omega,
      List.take_of_length_le filled.size.le,
      show marked.bytes.take (ctx.used + 1) = _ from hmarked] at hfilled
    have hzeros : 0 + (List.replicate 56 (0 : UInt8)).length ≤ 64 := by decide
    have hcleared := filled.take_put hzeros
    refine ⟨{ process { ctx with buffer := filled } filled with
        buffer := filled.put 0 _ hzeros }, ?_, rfl, rfl, rfl, ?_⟩
    · rw [if_neg hshort, Buffer.write_of_le _ hroom, ok_bind, ← hfilledDef]
      dsimp only
      rw [show (process { ctx with buffer := filled } filled).buffer = filled from rfl,
        Buffer.write_of_le _ hzeros, ok_bind]
      rfl
    · intro length _
      have hsplit : ctx.front ++ 0x80 :: (List.replicate (Fips180.zeros ctx.used) 0 ++ length)
          = filled.bytes ++ (List.replicate 56 0 ++ length) := by
        rw [hfilled, Fips180.zeros,
          show (119 - ctx.used % 64) % 64 = 64 - (ctx.used + 1) + 56 by omega, List.replicate_add,
          Context.front]
        simp only [List.append_assoc, List.cons_append, List.nil_append]
      show foldBlocks 64 compressBytes (hash (process { ctx with buffer := filled } filled).state)
        ((filled.put 0 _ hzeros).bytes.take 56 ++ length) = _
      rw [hsplit, foldBlocks_block (by decide) filled.size, process_hash,
        show (filled.put 0 _ hzeros).bytes.take 56 = _ from hcleared]
      rfl

/-- The words of the output, one after the other. -/
theorem write_words (w : Fin 8 → UInt32) {ks : List (Fin 8)} {n : Nat}
    (hks : ks.map Fin.val = List.range' n ks.length) (hfit : n + ks.length ≤ 8)
    (output : Buffer 32) :
    ∃ output', ks.foldlM
        (fun (output : Buffer 32) (k : Fin 8) => output.write (4 * k) (putUint32Be (w k))) output
        = .ok output' ∧
      output'.bytes = output.bytes.take (4 * n) ++ (Fips180.bytesOf (ks.map w)
        ++ output.bytes.drop (4 * (n + ks.length))) := by
  induction ks generalizing n output with
  | nil => exact ⟨output, rfl, (List.take_append_drop _ _).symm⟩
  | cons k ks ih =>
    rw [List.map_cons, List.length_cons, List.range'_succ, List.cons.injEq] at hks
    obtain ⟨hk, hks⟩ := hks
    rw [List.length_cons] at hfit
    have hroom : 4 * k.val + (putUint32Be (w k)).length ≤ 32 := by
      show 4 * k.val + 4 ≤ 32
      omega
    have hbytes : (output.put (4 * k) (putUint32Be (w k)) hroom).bytes
        = (output.bytes.take (4 * n) ++ putUint32Be (w k)) ++ output.bytes.drop (4 * n + 4) := by
      rw [← hk, List.append_assoc]
      rfl
    have hlength : (output.bytes.take (4 * n) ++ putUint32Be (w k)).length = 4 * (n + 1) := by
      rw [List.length_append, List.length_take, output.size]
      show min (4 * n) 32 + 4 = _
      omega
    -- The first word is written in its place, the others behind it.
    obtain ⟨output', hrun, houtput⟩ :=
      ih hks (by omega) (output.put (4 * k) (putUint32Be (w k)) hroom)
    refine ⟨output', ?_, ?_⟩
    · rw [List.foldlM_cons, Buffer.write_of_le _ hroom, ok_bind, hrun]
    · rw [houtput, hbytes, List.take_left' hlength,
        show 4 * (n + 1 + ks.length) = 4 * (n + 1) + 4 * ks.length by omega, ← List.drop_drop,
        List.drop_left' hlength, List.drop_drop, putUint32Be_eq,
        show 4 * n + 4 + 4 * ks.length = 4 * (n + (ks.length + 1)) by omega, List.length_cons]
      simp only [Fips180.bytesOf, List.map_cons, List.flatMap_cons, List.append_assoc]

/-- The last eight bytes of the last block. -/
theorem put_length (b : Buffer 64) (high low : UInt32) :
    ∃ b' : Buffer 64, (do
        let b ← b.write 56 (putUint32Be high)
        b.write 60 (putUint32Be low) : Except Fault (Buffer 64)) = .ok b' ∧
      b'.bytes = b.bytes.take 56 ++ (putUint32Be high ++ putUint32Be low) := by
  have hhigh : 56 + (putUint32Be high).length ≤ 64 := by
    show 56 + 4 ≤ 64
    decide
  have hlow : 60 + (putUint32Be low).length ≤ 64 := by
    show 60 + 4 ≤ 64
    decide
  have hfirst := b.take_put hhigh
  have hsecond := (b.put 56 (putUint32Be high) hhigh).take_put hlow
  have hall : 60 + (putUint32Be low).length = 64 := rfl
  refine ⟨_, by rw [Buffer.write_of_le _ hhigh, ok_bind, Buffer.write_of_le _ hlow], ?_⟩
  rw [hall, List.take_of_length_le (Buffer.size _).le] at hsecond
  rw [hsecond, show (b.put 56 (putUint32Be high) hhigh).bytes.take 60 = _ from hfirst,
    List.append_assoc]

/-- **`mbedtls_sha256_finish_ret`.** -/
theorem finishRet_eq (ctx : Context) (output : Buffer 32) :
    ∃ (ctx' : Context) (output' : Buffer 32), finishRet ctx output = .ok (ctx', output') ∧
      output'.bytes
        = let v := foldBlocks 64 compressBytes (hash ctx.state)
            (ctx.front ++ tail ctx.used ctx.count)
          if ctx.is224 then v.bytes.take 28 ++ output.bytes.drop 28 else v.bytes := by
  obtain ⟨padded, hpad, h₀, h₁, h₂₂₄, hblocks⟩ := addPadding_eq ctx
  obtain ⟨buffer, hlength, hbuffer⟩ := put_length padded.buffer
    (padded.total₀ >>> 29 ||| padded.total₁ <<< 3) (padded.total₀ <<< 3)
  have hcount : padded.count = ctx.count := by
    unfold Context.count
    rw [h₀, h₁]
  rw [lengthBytes_eq, hcount] at hbuffer
  -- The last block is the one that the length ends.
  have hlast := hblocks (bytesBe 8 (8 * ctx.count)) (length_bytesBe _ _)
  rw [← hbuffer, ← List.append_nil buffer.bytes, foldBlocks_block (by decide) buffer.size,
    foldBlocks_of_lt (by decide)] at hlast
  obtain ⟨ended, hended⟩ : ∃ c, c = process { padded with buffer } buffer := ⟨_, rfl⟩
  have hstate : hash ended.state = foldBlocks 64 compressBytes (hash ctx.state)
      (ctx.front ++ tail ctx.used ctx.count) := by
    rw [hended, process_hash]
    exact hlast
  have hks : ([0, 1, 2, 3, 4, 5, 6] : List (Fin 8)).map Fin.val = List.range' 0 7 := by decide
  obtain ⟨first, hfirst, hfirstBytes⟩ :=
    write_words (fun k => ended.state[k]) hks (by decide) output
  have hroom : 28 + (putUint32Be ended.state[7]).length ≤ 32 := by
    show 28 + 4 ≤ 32
    decide
  have hwords : (hash ended.state).bytes
      = Fips180.bytesOf ([0, 1, 2, 3, 4, 5, 6].map fun k : Fin 8 => ended.state[k])
        ++ putUint32Be ended.state[7] := by
    rw [putUint32Be_eq, Fips180.Hash256.bytes, Fips180.bytesOf, Fips180.bytesOf]
    simp only [List.map_cons, List.map_nil, List.flatMap_cons, List.flatMap_nil, List.append_assoc,
      List.append_nil]
    rfl
  have hseven : (Fips180.bytesOf
      ([0, 1, 2, 3, 4, 5, 6].map fun k : Fin 8 => ended.state[k])).length = 28 := by
    simp [Fips180.bytesOf]
  obtain ⟨b₁, hb₁, hb₂⟩ := bind_eq_ok.mp hlength
  have hrun : finishRet ctx output
      = if ctx.is224 then .ok (ended, first)
        else do
          let output ← first.write 28 (putUint32Be ended.state[7])
          return (ended, output) := by
    unfold finishRet
    rw [hpad, ok_bind]
    dsimp only
    rw [hb₁, ok_bind, hb₂, ok_bind, ← hended, hfirst, ok_bind, ← h₂₂₄,
      show ended.is224 = padded.is224 by rw [hended]; rfl]
    rfl
  rw [hrun]
  by_cases hshort : ctx.is224 = true
  · refine ⟨ended, first, if_pos hshort, ?_⟩
    rw [if_pos hshort, ← hstate, hfirstBytes, hwords, List.take_left' hseven]
    rfl
  · refine ⟨ended, first.put 28 _ hroom, ?_, ?_⟩
    · rw [if_neg hshort, Buffer.write_of_le _ hroom]
      rfl
    · rw [if_neg hshort, ← hstate, hwords]
      show first.bytes.take 28 ++ (putUint32Be ended.state[7] ++ first.bytes.drop 32) = _
      rw [List.drop_of_length_le first.size.le, List.append_nil, hfirstBytes, Nat.mul_zero,
        List.take_zero, List.nil_append, List.take_left' hseven]

/-! ### The digest of some parts -/

/-- A context that has taken a message in. -/
structure Context.Holds (ctx : Context) (message : Bytes) : Prop where
  state_eq : hash ctx.state = foldBlocks 64 compressBytes Fips180.initial256 message
  front_eq : ctx.front = pending 64 message
  count_eq : ctx.count = message.length % 2 ^ 64
  is224_eq : ctx.is224 = false

/-- A new context holds the empty message. -/
theorem holds_startsRet (ctx : Context) : (startsRet ctx false).Holds [] := by
  refine ⟨?_, ?_, ?_, rfl⟩
  · rw [foldBlocks_of_lt (by decide)]
    rfl
  · rw [pending_of_lt (by decide)]
    rfl
  · show (0 : UInt32).toNat * 2 ^ 32 + (0 : UInt32).toNat = 0 % 2 ^ 64
    decide

/-- **What a context has taken comes behind what it held.** -/
theorem Context.Holds.took {ctx ctx' : Context} {message text : Bytes} (h : ctx.Holds message)
    (htext : text.length < 2 ^ 32) (htook : ctx.Took text ctx') : ctx'.Holds (message ++ text) := by
  refine ⟨?_, ?_, ?_, htook.is224_eq.trans h.is224_eq⟩
  · rw [htook.state_eq, h.state_eq, h.front_eq, ← foldBlocks_append (by decide)]
  · rw [htook.front_eq, h.front_eq, ← pending_append (by decide)]
  · rw [htook.count_eq, h.count_eq, Nat.mod_eq_of_lt htext, Nat.mod_add_mod, List.length_append]

/-- The length field is the length in bits modulo 2^64. -/
theorem bytesBe_mod (v : Nat) : bytesBe 8 (8 * (v % 2 ^ 64)) = bytesBe 8 (8 * v) := by
  rw [← bytesBe_halves rfl rfl, ← bytesBe_halves (v := 8 * v) rfl rfl,
    show 8 * (v % 2 ^ 64) / 2 ^ 32 % 2 ^ 32 = 8 * v / 2 ^ 32 % 2 ^ 32 by omega,
    show 8 * (v % 2 ^ 64) % 2 ^ 32 = 8 * v % 2 ^ 32 by omega]

/-- The padding of the source is the one of the standard. -/
theorem tail_eq (message : Bytes) :
    message ++ tail (message.length % 64) (message.length % 2 ^ 64) = Fips180.pad message := by
  rw [tail, bytesBe_mod, Fips180.zeros, Nat.mod_mod, Fips180.pad, Fips180.zeros]

/-- **`mbedtls_sha256_finish_ret` gives the hash of what the context holds.** -/
theorem Context.Holds.finishRet {ctx : Context} {message : Bytes} (h : ctx.Holds message)
    (output : Buffer 32) :
    ∃ (ctx' : Context) (output' : Buffer 32), Sha256.finishRet ctx output = .ok (ctx', output') ∧
      output'.bytes = Fips180.sha256 message := by
  obtain ⟨ctx', output', hrun, houtput⟩ := finishRet_eq ctx output
  have hused : ctx.used = message.length % 64 := by
    rw [← ctx.length_front, h.front_eq, length_pending]
  have hpad := foldBlocks_append (f := compressBytes) (show 0 < 64 by decide) Fips180.initial256
    message (tail (message.length % 64) (message.length % 2 ^ 64))
  refine ⟨ctx', output', hrun, ?_⟩
  rw [houtput, h.is224_eq, h.state_eq, h.front_eq, h.count_eq, hused, ← hpad, tail_eq]
  rfl

/-! ### The library -/

/-- What a function returns that has no fault. -/
def value {α : Type} (x : Except Fault α) (h : Defined x) : α :=
  match x, h with
  | .ok a, _ => a
  | .error e, h => absurd h (not_defined_error e)

/-- The value of a computation that is defined is its result. -/
theorem value_eq {α : Type} {x : Except Fault α} {a : α} (hx : x = .ok a) (h : Defined x) :
    value x h = a := by
  subst hx
  rfl

/-- An update is always defined. -/
theorem defined_updateRet (ctx : Context) (input : Bytes) : Defined (updateRet ctx input) := by
  obtain ⟨ctx', hrun, -⟩ := updateRet_took ctx input
  exact ⟨ctx', hrun⟩

/-- So is the end. -/
theorem defined_finishRet (ctx : Context) (output : Buffer 32) :
    Defined (finishRet ctx output) := by
  obtain ⟨ctx', output', hrun, -⟩ := finishRet_eq ctx output
  exact ⟨_, hrun⟩

/-- The functions that `Sha256` calls.  `sha256sum` is not initialised: it holds `garbage`. -/
def mbedtls (garbage : Buffer 32) : Sha256Library Context where
  init := init
  startsRet ctx := (startsRet ctx false, 0)
  updateRet ctx s := (value (updateRet ctx s) (defined_updateRet ctx s), 0)
  finishRet ctx := ((value (finishRet ctx garbage) (defined_finishRet ctx garbage)).2, 0)

section Library

variable (garbage : Buffer 32)

/-- An update puts the string behind what the context holds. -/
theorem holds_update {ctx : Context} {message s : Bytes} (h : ctx.Holds message)
    (hs : s.length < 2 ^ 32) :
    (ShaTwo.update (mbedtls garbage) ctx s).1.Holds (message ++ s) := by
  obtain ⟨ctx', hrun, htook⟩ := updateRet_took ctx s
  have hvalue : (ShaTwo.update (mbedtls garbage) ctx s).1 = ctx' := value_eq hrun _
  rw [hvalue]
  exact h.took hs htook

/-- `final` gives the hash of all of it. -/
theorem final_holds {ctx : Context} {message : Bytes} (h : ctx.Holds message) :
    ShaTwo.final (mbedtls garbage) ctx = (Fips180.sha256 message, true) := by
  obtain ⟨ctx', output', hrun, houtput⟩ := h.finishRet garbage
  have hvalue : ((mbedtls garbage).finishRet ctx).1 = output' :=
    congrArg Prod.snd (value_eq hrun (defined_finishRet ctx garbage))
  refine Prod.ext ?_ rfl
  show ((mbedtls garbage).finishRet ctx).1.bytes = _
  rw [hvalue, houtput]

/-- And at the start it is nothing. -/
theorem holds_start : (ShaTwo.start (mbedtls garbage)).Holds [] := holds_startsRet _

/-- **The digest of some parts**, each of them of less than 2^32 bytes. -/
theorem final_after {parts : List Bytes} (hparts : ∀ s ∈ parts, s.length < 2 ^ 32) :
    ShaTwo.final (mbedtls garbage) (ShaTwo.after (mbedtls garbage) parts)
      = (Fips180.sha256 parts.flatten, true) := by
  have hholds : ∀ (parts : List Bytes) (ctx : Context) (message : Bytes), ctx.Holds message →
      (∀ s ∈ parts, s.length < 2 ^ 32) →
      (parts.foldl (fun ctx s => (ShaTwo.update (mbedtls garbage) ctx s).1) ctx).Holds
        (message ++ parts.flatten) := by
    intro parts
    induction parts with
    | nil =>
      intro ctx message h _
      rwa [List.flatten_nil, List.append_nil]
    | cons s parts ih =>
      intro ctx message h hparts
      rw [List.forall_mem_cons] at hparts
      rw [List.foldl_cons, List.flatten_cons, ← List.append_assoc]
      exact ih _ _ (holds_update garbage h hparts.1) hparts.2
  exact final_holds garbage (hholds parts _ [] (holds_start garbage) hparts)

/-- Two parts. -/
theorem final_two {first second : Bytes} (hfirst : first.length < 2 ^ 32)
    (hsecond : second.length < 2 ^ 32) :
    (ShaTwo.final (mbedtls garbage) (ShaTwo.update (mbedtls garbage) (ShaTwo.update
      (mbedtls garbage) (ShaTwo.start (mbedtls garbage)) first).1 second).1).1
      = Fips180.sha256 (first ++ second) :=
  congrArg Prod.fst
    (final_holds garbage (holds_update garbage (holds_update garbage (holds_start garbage) hfirst)
      hsecond))

/-- **`hmac_compute` is HMAC-SHA256**, and writes to no place outside its pads. -/
theorem hmacCompute_mbedtls {key message : Bytes} (hkey : key.length < 2 ^ 32)
    (hmessage : message.length < 2 ^ 32) :
    ShaTwo.hmacCompute (mbedtls garbage) key message
      = .ok (Rfc2104.hmac Fips180.sha256 64 key message) := by
  have hhashed : (ShaTwo.final (mbedtls garbage) (ShaTwo.update (mbedtls garbage)
      (ShaTwo.start (mbedtls garbage)) key).1).1 = Fips180.sha256 key :=
    congrArg Prod.fst (final_holds garbage (holds_update garbage (holds_start garbage) hkey))
  obtain ⟨copyKey, hcopy⟩ :
      ∃ k, k = if key.length > 64 then Fips180.sha256 key else key := ⟨_, rfl⟩
  have hlen : copyKey.length ≤ 64 := by
    rw [hcopy]
    by_cases hlong : key.length > 64
    · rw [if_pos hlong, Fips180.length_sha256]
      decide
    · rw [if_neg hlong]
      omega
  -- Both pads have the length of a block, so what is hashed stays below 2^32.
  have hpad : ∀ pad, (ShaTwo.padAfter pad copyKey copyKey.length).length < 2 ^ 32 := by
    intro pad
    rw [ShaTwo.length_padAfter pad hlen le_rfl]
    decide
  have hdigest : ∀ text, (Fips180.sha256 text).length < 2 ^ 32 := by
    intro text
    rw [Fips180.length_sha256]
    decide
  unfold ShaTwo.hmacCompute
  dsimp only
  rw [hhashed, ← hcopy, ShaTwo.xorLoop_eq hlen le_rfl, ok_bind, pure_eq_ok]
  dsimp only
  rw [final_two garbage (hpad _) hmessage, final_two garbage (hpad _) (hdigest _),
    ShaTwo.padAfter_length, ShaTwo.padAfter_length, Rfc2104.hmac, Rfc2104.blockKey, ← hcopy]

end Library

/-- A message in two parts. -/
theorem final_after_two :
    ShaTwo.final (mbedtls ⟨List.replicate 32 7, rfl⟩)
        (ShaTwo.after (mbedtls ⟨List.replicate 32 7, rfl⟩) [ascii "a", ascii "bc"])
      = (Fips180.sha256 (ascii "abc"), true) :=
  final_after _ (by decide)

/-- A short key. -/
theorem hmacCompute_mbedtls_key :
    ShaTwo.hmacCompute (mbedtls ⟨List.replicate 32 7, rfl⟩) (ascii "key")
        (ascii "The quick brown fox jumps over the lazy dog")
      = .ok (Fips180.bytesOf [0xf7bc83f4, 0x30538424, 0xb13298e6, 0xaa6fb143, 0xef4d59a1,
          0x49461759, 0x97479dbc, 0x2d1a3cd8]) :=
  (hmacCompute_mbedtls _ (by decide) (by decide)).trans (by decide +kernel)

end Sha256

end Icl.Security
