import Icl.Cxx.Bytes

namespace Icl.Security

open Icl.Cxx

/-!
# `gcm.c`

The model of what is used of `mbedtls/library/gcm.c`: `mbedtls_gcm_starts` with an IV of 12 bytes,
`mbedtls_gcm_update`, `mbedtls_gcm_finish` and `mbedtls_gcm_crypt_and_tag` with a tag of 16 bytes.

The block cipher is a parameter, and so is the multiplication by H, which is done either with tables
(`tableMult`) or, if the processor has them, with carry-less instructions.

* `update_append` — a text may be given in pieces, all of them but the last one whole blocks;
* `update_decrypting` — what one context has encrypted, the same one in the other mode decrypts, and
  both come to the same tag.
-/

/-- A block of 16 bytes. -/
abbrev Block := Vector UInt8 16

namespace Gcm

/-- What the mode of operation is built on. -/
structure Primitives where
  /-- The block cipher: the key and the block. -/
  encrypt : Block → Block → Block
  /-- The multiplication by H, the first argument. -/
  mult : Block → Block → Block

inductive Mode where
  | encrypt | decrypt
  deriving DecidableEq, Repr

/-- `mbedtls_gcm_context`.  The tables `HL` and `HH` depend on H alone, which is kept in their
    place. -/
structure Context where
  key : Block
  h : Block
  mode : Mode
  len : Nat
  addLen : Nat
  baseEctr : Block
  y : Block
  buf : Block
  deriving DecidableEq, Repr

/-- The block of zeros. -/
def zeroBlock : Block := Vector.replicate 16 0

/-- `buf[i] ^= p[i]`, as far as `p` goes. -/
def xorInto (buf : Block) (p : Bytes) : Block :=
  Vector.ofFn fun i => if h : i.val < p.length then buf[i] ^^^ p[i.val] else buf[i]

/-! ### The multiplication -/

/-- Eight bytes, big-endian. -/
def getUint64 (b : Block) (i : Nat) : UInt64 :=
  (List.range 8).foldl (fun n k => n <<< 8 ||| (b[i + k]?.getD 0).toUInt64) 0

/-- The bytes of a 64-bit value, big-endian. -/
def putUint64 (n : UInt64) : Bytes :=
  (List.range 8).map fun k => (n >>> UInt64.ofNat (56 - 8 * k)).toUInt8

/-- The two tables. -/
structure Tables where
  hl : Vector UInt64 16
  hh : Vector UInt64 16

/-- The entry of the tables, high and low part. -/
def Tables.entry (tables : Tables) (i : Nat) : UInt64 × UInt64 :=
  (tables.hh[i]?.getD 0, tables.hl[i]?.getD 0)

/-- An entry is written. -/
def Tables.setEntry (tables : Tables) (i : Nat) (v : UInt64 × UInt64) : Tables :=
  { hh := tables.hh.setIfInBounds i v.1, hl := tables.hl.setIfInBounds i v.2 }

/-- `gcm_gen_table`. -/
def genTable (h : Block) : Tables :=
  let v := (getUint64 h 0, getUint64 h 8)
  let zeros : Tables := { hl := Vector.replicate 16 0, hh := Vector.replicate 16 0 }
  let (tables, _) := [4, 2, 1].foldl (fun (tables, vh, vl) i =>
    let t : UInt64 := (vl &&& 1) * 0xe1000000
    let v : UInt64 × UInt64 := ((vh >>> 1) ^^^ (t <<< 32), (vh <<< 63) ||| (vl >>> 1))
    (tables.setEntry i v, v)) (zeros.setEntry 8 v, v)
  [2, 4, 8].foldl (fun tables i => (List.range i).tail.foldl (fun tables j =>
    let (vh, vl) := tables.entry i
    let (wh, wl) := tables.entry j
    tables.setEntry (i + j) (vh ^^^ wh, vl ^^^ wl)) tables) tables

/-- `last4`. -/
def last4 : List UInt64 :=
  [0x0000, 0x1c20, 0x3840, 0x2460, 0x7080, 0x6ca0, 0x48c0, 0x54e0,
    0xe100, 0xfd20, 0xd940, 0xc560, 0x9180, 0x8da0, 0xa9c0, 0xb5e0]

/-- One half of a byte in the loop of `gcm_mult`. -/
def multStep (tables : Tables) (z : UInt64 × UInt64) (half : UInt8) : UInt64 × UInt64 :=
  let (zh, zl) := z
  let rem := (zl &&& 0xf).toNat
  let (vh, vl) := tables.entry half.toNat
  ((zh >>> 4) ^^^ (last4.getD rem 0 <<< 48) ^^^ vh, ((zh <<< 60) ||| (zl >>> 4)) ^^^ vl)

/-- `gcm_mult`, with the tables. -/
def tableMult (h x : Block) : Block :=
  let tables := genTable h
  let start := tables.entry (x[15] &&& 0xf).toNat
  let (zh, zl) := (List.range 16).reverse.foldl (fun z i =>
    let c := x[i]?.getD 0
    let z := if i ≠ 15 then multStep tables z (c &&& 0xf) else z
    multStep tables z (c >>> 4)) start
  let output := putUint64 zh ++ putUint64 zl
  Vector.ofFn fun i => output.getD i.val 0

/-! ### The mode of operation -/

/-- `mbedtls_gcm_setkey`: H is the block of zeros, encrypted. -/
def setkey (prim : Primitives) (key : Block) : Context :=
  { key, h := prim.encrypt key zeroBlock, mode := .encrypt, len := 0, addLen := 0
    baseEctr := zeroBlock, y := zeroBlock, buf := zeroBlock }

/-- The loop over the additional data. -/
def addLoop (prim : Primitives) (h : Block) : Nat → Block → Bytes → Block
  | 0, buf, _ => buf
  | fuel + 1, buf, add =>
    if add = [] then buf
    else addLoop prim h fuel (prim.mult h (xorInto buf (add.take 16))) (add.drop 16)

/-- `mbedtls_gcm_starts`, with an IV of 12 bytes. -/
def starts (prim : Primitives) (ctx : Context) (mode : Mode) (iv : Vector UInt8 12) (add : Bytes) :
    Context :=
  let y : Block := iv ++ (#v[0, 0, 0, 1] : Vector UInt8 4)
  { ctx with
    mode, y, len := 0, addLen := add.length
    baseEctr := prim.encrypt ctx.key y
    buf := addLoop prim ctx.h add.length zeroBlock add }

/-- The increment of the last four bytes of `y`, the first `n` of them being left. -/
def incrementLoop : Nat → Block → Block
  | 0, y => y
  | n + 1, y =>
    let c := (y[12 + n]?.getD 0) + 1
    let y := y.setIfInBounds (12 + n) c
    if c ≠ 0 then y else incrementLoop n y

/-- One turn of the loop of `mbedtls_gcm_update`: the context, and what goes to the output. -/
def updateBlock (prim : Primitives) (ctx : Context) (p : Bytes) : Context × Bytes :=
  let y := incrementLoop 4 ctx.y
  let ectr := prim.encrypt ctx.key y
  let out := ectr.toList.zipWith (· ^^^ ·) p
  let buf := match ctx.mode with
    | .decrypt => xorInto ctx.buf p
    | .encrypt => xorInto ctx.buf out
  ({ ctx with y, buf := prim.mult ctx.h buf }, out)

/-- The loop of `mbedtls_gcm_update`. -/
def updateLoop (prim : Primitives) : Nat → Context → Bytes → Context × Bytes
  | 0, ctx, _ => (ctx, [])
  | fuel + 1, ctx, input =>
    if input = [] then (ctx, [])
    else
      let (ctx, out) := updateBlock prim ctx (input.take 16)
      let (ctx, rest) := updateLoop prim fuel ctx (input.drop 16)
      (ctx, out ++ rest)

/-- `mbedtls_gcm_update`: nothing is done, and `MBEDTLS_ERR_GCM_BAD_INPUT` returned, if there is too
    much.  The output does not overlap the input. -/
def update (prim : Primitives) (ctx : Context) (input : Bytes) : Context × Bytes :=
  if ctx.len + input.length > 0xFFFFFFFE0 then (ctx, [])
  else updateLoop prim input.length { ctx with len := ctx.len + input.length } input

/-- `mbedtls_gcm_finish`: the tag. -/
def finish (prim : Primitives) (ctx : Context) : Block :=
  let origLen := ctx.len * 8 % 2 ^ 64
  let origAddLen := ctx.addLen * 8 % 2 ^ 64
  if origLen ≠ 0 ∨ origAddLen ≠ 0 then
    let workBuf := putUint64 (UInt64.ofNat origAddLen) ++ putUint64 (UInt64.ofNat origLen)
    xorInto ctx.baseEctr (prim.mult ctx.h (xorInto ctx.buf workBuf)).toList
  else ctx.baseEctr

/-- `mbedtls_gcm_crypt_and_tag`. -/
def cryptAndTag (prim : Primitives) (key : Block) (mode : Mode) (iv : Vector UInt8 12)
    (add input : Bytes) : Bytes × Block :=
  let ctx := starts prim (setkey prim key) mode iv add
  let (ctx, output) := update prim ctx input
  (output, finish prim ctx)

/-- AES with the key of zeros, on the three blocks that one block of data takes. -/
def zeroKeyAes (block : Block) : Block :=
  if block = zeroBlock then
    #v[0x66, 0xe9, 0x4b, 0xd4, 0xef, 0x8a, 0x2c, 0x3b,
      0x88, 0x4c, 0xfa, 0x59, 0xca, 0x34, 0x2b, 0x2e]
  else if block = #v[0, 0, 0, 0, 0, 0, 0, 0, 0, 0, 0, 0, 0, 0, 0, 1] then
    #v[0x58, 0xe2, 0xfc, 0xce, 0xfa, 0x7e, 0x30, 0x61,
      0x36, 0x7f, 0x1d, 0x57, 0xa4, 0xe7, 0x45, 0x5a]
  else
    #v[0x03, 0x88, 0xda, 0xce, 0x60, 0xb6, 0xa3, 0x92,
      0xf3, 0x28, 0xc2, 0xb9, 0x71, 0xb2, 0xfe, 0x78]

/-- The second test of the source: a block of zeros under the key of zeros. -/
example : (cryptAndTag ⟨fun _ => zeroKeyAes, tableMult⟩ zeroBlock .encrypt (Vector.replicate 12 0)
      [] (List.replicate 16 0)).2
    = #v[0xab, 0x6e, 0x47, 0xd4, 0x2c, 0xec, 0x13, 0xbd,
      0xf5, 0x3a, 0x67, 0xb2, 0x12, 0x57, 0xbd, 0xdf] := by
  decide +kernel

/-! ### The loop of `mbedtls_gcm_update` -/

variable (prim : Primitives)

/-- A block comes out as long as it goes in. -/
theorem length_updateBlock (ctx : Context) {p : Bytes} (hp : p.length ≤ 16) :
    (updateBlock prim ctx p).2.length = p.length := by
  simp [updateBlock, hp]

/-- Without text nothing is done. -/
theorem updateLoop_nil (n : Nat) (ctx : Context) : updateLoop prim n ctx [] = (ctx, []) := by
  cases n <;> rfl

/-- Any fuel that is enough gives the same. -/
theorem updateLoop_fuel {n m : Nat} (ctx : Context) {input : Bytes} (hn : input.length ≤ n)
    (hm : input.length ≤ m) : updateLoop prim n ctx input = updateLoop prim m ctx input := by
  induction n generalizing m ctx input with
  | zero =>
    obtain rfl := List.length_eq_zero_iff.mp (Nat.le_zero.mp hn)
    rw [updateLoop_nil, updateLoop_nil]
  | succ n ih =>
    by_cases hinput : input = []
    · rw [hinput, updateLoop_nil, updateLoop_nil]
    · have hpos := List.length_pos_of_ne_nil hinput
      obtain ⟨m, rfl⟩ : ∃ k, m = k + 1 := ⟨m - 1, by omega⟩
      have hlength : (input.drop 16).length = input.length - 16 := List.length_drop
      have hrest := ih (updateBlock prim ctx (input.take 16)).1
        (show (input.drop 16).length ≤ n by omega) (show (input.drop 16).length ≤ m by omega)
      simp only [updateLoop, if_neg hinput, hrest]

/-- The whole loop. -/
def updateAll (ctx : Context) (input : Bytes) : Context × Bytes :=
  updateLoop prim input.length ctx input

@[simp] theorem updateAll_nil (ctx : Context) : updateAll prim ctx [] = (ctx, []) := rfl

/-- One turn of the loop. -/
theorem updateAll_of_ne_nil (ctx : Context) {input : Bytes} (hinput : input ≠ []) :
    updateAll prim ctx input =
      ((updateAll prim (updateBlock prim ctx (input.take 16)).1 (input.drop 16)).1,
        (updateBlock prim ctx (input.take 16)).2
          ++ (updateAll prim (updateBlock prim ctx (input.take 16)).1 (input.drop 16)).2) := by
  have hpos := List.length_pos_of_ne_nil hinput
  obtain ⟨n, hn⟩ : ∃ n, input.length = n + 1 := ⟨input.length - 1, by omega⟩
  have hlength : (input.drop 16).length = input.length - 16 := List.length_drop
  have hrest := updateLoop_fuel prim (updateBlock prim ctx (input.take 16)).1
    (show (input.drop 16).length ≤ n by omega) (Nat.le_refl _)
  simp only [updateAll, hn, updateLoop, if_neg hinput, hrest]

/-- What is shown for no input, and for an input when it is shown for what follows its first
    block. -/
theorem blocks_induction {P : Bytes → Prop} (hnil : P [])
    (hstep : ∀ input, input ≠ [] → P (input.drop 16) → P input) (input : Bytes) : P input := by
  induction hlength : input.length using Nat.strong_induction_on generalizing input with
  | _ n ih =>
    by_cases hinput : input = []
    · exact hinput ▸ hnil
    · have hpos := List.length_pos_of_ne_nil hinput
      have hrest : (input.drop 16).length = input.length - 16 := List.length_drop
      exact hstep input hinput (ih _ (by omega) _ rfl)

/-- The output is as long as the input. -/
theorem length_updateAll (ctx : Context) (input : Bytes) :
    (updateAll prim ctx input).2.length = input.length := by
  induction input using blocks_induction generalizing ctx with
  | hnil => rfl
  | hstep input hinput ih =>
    have htake : (input.take 16).length ≤ 16 := List.length_take_le _ _
    rw [updateAll_of_ne_nil prim ctx hinput, List.length_append, length_updateBlock prim ctx htake,
      ih, ← List.length_append, List.take_append_drop]

/-- The same context, with another count of bytes. -/
def Context.withLen (ctx : Context) (len : Nat) : Context := { ctx with len }

/-- The count takes no part in the loop. -/
theorem updateAll_withLen (ctx : Context) (input : Bytes) (len : Nat) :
    updateAll prim (ctx.withLen len) input
      = ((updateAll prim ctx input).1.withLen len, (updateAll prim ctx input).2) := by
  induction input using blocks_induction generalizing ctx with
  | hnil => rfl
  | hstep input hinput ih =>
    have hblock : updateBlock prim (ctx.withLen len) (input.take 16)
        = ((updateBlock prim ctx (input.take 16)).1.withLen len,
          (updateBlock prim ctx (input.take 16)).2) := rfl
    rw [updateAll_of_ne_nil prim _ hinput, updateAll_of_ne_nil prim ctx hinput, hblock, ih]

/-- **Pieces.**  Whole blocks first, then the rest. -/
theorem updateAll_append (ctx : Context) {whole : Bytes} (hwhole : whole.length % 16 = 0)
    (rest : Bytes) :
    updateAll prim ctx (whole ++ rest) =
      ((updateAll prim (updateAll prim ctx whole).1 rest).1,
        (updateAll prim ctx whole).2 ++ (updateAll prim (updateAll prim ctx whole).1 rest).2) := by
  induction whole using blocks_induction generalizing ctx with
  | hnil => rfl
  | hstep whole hne ih =>
    -- The first block of the text is the first block of the piece.
    have hpos := List.length_pos_of_ne_nil hne
    have htake : (whole ++ rest).take 16 = whole.take 16 := List.take_append_of_le_length (by omega)
    have hdrop : (whole ++ rest).drop 16 = whole.drop 16 ++ rest :=
      List.drop_append_of_le_length (by omega)
    have hlength : (whole.drop 16).length % 16 = 0 := by
      rw [List.length_drop]
      omega
    rw [updateAll_of_ne_nil prim ctx (List.append_ne_nil_of_left_ne_nil hne rest), htake, hdrop,
      updateAll_of_ne_nil prim ctx hne, ih _ hlength, List.append_assoc]

/-! ### Decryption -/

/-- The same context, for decryption. -/
def Context.decrypting (ctx : Context) : Context := { ctx with mode := .decrypt }

/-- What is masked twice with the same bytes is as before. -/
theorem zipWith_xor_cancel (mask p : Bytes) (h : p.length ≤ mask.length) :
    mask.zipWith (· ^^^ ·) (mask.zipWith (· ^^^ ·) p) = p := by
  induction p generalizing mask with
  | nil => simp
  | cons c p ih =>
    obtain ⟨m, mask, rfl⟩ := List.exists_cons_of_length_pos (Nat.lt_of_lt_of_le (by simp) h)
    have hle : p.length ≤ mask.length := by simpa using h
    rw [List.zipWith_cons_cons, List.zipWith_cons_cons, ih mask hle, ← UInt8.xor_assoc,
      UInt8.xor_self, UInt8.zero_xor]

/-- **One block back.**  The tag goes by what has been encrypted, in both modes. -/
theorem updateBlock_decrypting {ctx : Context} (hmode : ctx.mode = .encrypt) {p : Bytes}
    (hp : p.length ≤ 16) :
    updateBlock prim ctx.decrypting (updateBlock prim ctx p).2
      = ((updateBlock prim ctx p).1.decrypting, p) := by
  have hcancel := zipWith_xor_cancel (prim.encrypt ctx.key (incrementLoop 4 ctx.y)).toList p
    (by simpa using hp)
  simp only [updateBlock, Context.decrypting, hmode, hcancel]

/-- **Decrypting what has been encrypted gives the text back**, and hashes the same. -/
theorem updateAll_decrypting {ctx : Context} (hmode : ctx.mode = .encrypt) (input : Bytes) :
    updateAll prim ctx.decrypting (updateAll prim ctx input).2
      = ((updateAll prim ctx input).1.decrypting, input) := by
  induction input using blocks_induction generalizing ctx with
  | hnil => rfl
  | hstep input hinput ih =>
    have htake : (input.take 16).length ≤ 16 := List.length_take_le _ _
    have hout := length_updateBlock prim ctx htake
    have hrest := length_updateAll prim (updateBlock prim ctx (input.take 16)).1 (input.drop 16)
    have hblock := updateBlock_decrypting prim hmode htake
    have hnext := ih (show (updateBlock prim ctx (input.take 16)).1.mode = .encrypt from hmode)
    rw [updateAll_of_ne_nil prim ctx hinput]
    generalize updateBlock prim ctx (input.take 16) = r at hout hrest hblock hnext ⊢
    generalize updateAll prim r.1 (input.drop 16) = r' at hrest hnext ⊢
    -- The first block of the output is that of the input.
    have hsplit : (r.2 ++ r'.2).take 16 = r.2 ∧ (r.2 ++ r'.2).drop 16 = r'.2 := by
      rw [List.length_take] at hout
      rw [List.length_drop] at hrest
      by_cases hlong : 16 ≤ input.length
      · exact ⟨List.take_left' (by omega), List.drop_left' (by omega)⟩
      · have hnil : r'.2 = [] := List.length_eq_zero_iff.mp (by omega)
        rw [hnil, List.append_nil]
        exact ⟨List.take_of_length_le (by omega), List.drop_of_length_le (by omega)⟩
    have hne : r.2 ++ r'.2 ≠ [] := by
      have hpos := List.length_pos_of_ne_nil hinput
      rw [List.length_take] at hout
      exact List.ne_nil_of_length_pos (by rw [List.length_append]; omega)
    rw [updateAll_of_ne_nil prim _ hne, hsplit.1, hsplit.2, hblock, hnext, List.take_append_drop]

/-! ### The functions -/

/-- Within the limits of the standard `mbedtls_gcm_update` is its loop, and the length is
    counted. -/
theorem update_eq (ctx : Context) {input : Bytes} (hsize : ctx.len + input.length ≤ 0xFFFFFFFE0) :
    update prim ctx input
      = ((updateAll prim ctx input).1.withLen (ctx.len + input.length),
        (updateAll prim ctx input).2) := by
  rw [update, if_neg (by omega)]
  exact updateAll_withLen prim ctx input _

/-- Its output is as long as its input. -/
theorem length_update (ctx : Context) {input : Bytes}
    (hsize : ctx.len + input.length ≤ 0xFFFFFFFE0) :
    (update prim ctx input).2.length = input.length := by
  rw [update_eq prim ctx hsize]
  exact length_updateAll prim ctx input

/-- Starts, one update, finish. -/
theorem cryptAndTag_eq (key : Block) (mode : Mode) (iv : Vector UInt8 12) (add input : Bytes) :
    cryptAndTag prim key mode iv add input =
      ((update prim (starts prim (setkey prim key) mode iv add) input).2,
        finish prim (update prim (starts prim (setkey prim key) mode iv add) input).1) := rfl

/-- The length is that of all the updates. -/
theorem len_update (ctx : Context) {input : Bytes} (hsize : ctx.len + input.length ≤ 0xFFFFFFFE0) :
    (update prim ctx input).1.len = ctx.len + input.length := by
  rw [update_eq prim ctx hsize]
  rfl

/-- Nothing is done without input. -/
theorem update_nil (ctx : Context) (hsize : ctx.len ≤ 0xFFFFFFFE0) :
    update prim ctx [] = (ctx, []) :=
  update_eq prim ctx hsize

/-- **A text in two pieces** gives what it gives as a whole. -/
theorem update_append (ctx : Context) {whole rest : Bytes} (hwhole : whole.length % 16 = 0)
    (hsize : ctx.len + (whole ++ rest).length ≤ 0xFFFFFFFE0) :
    update prim ctx (whole ++ rest) =
      ((update prim (update prim ctx whole).1 rest).1,
        (update prim ctx whole).2 ++ (update prim (update prim ctx whole).1 rest).2) := by
  rw [List.length_append] at hsize
  have hall := update_eq prim ctx (show ctx.len + (whole ++ rest).length ≤ _ by
    rw [List.length_append]
    omega)
  have hfirst := update_eq prim ctx (show ctx.len + whole.length ≤ _ by omega)
  have hsecond := update_eq prim ((updateAll prim ctx whole).1.withLen (ctx.len + whole.length))
    (show ctx.len + whole.length + rest.length ≤ _ by omega)
  rw [hall, hfirst, hsecond, updateAll_append prim ctx hwhole, updateAll_withLen,
    List.length_append, ← Nat.add_assoc]
  rfl

/-- **The text is decrypted again**, and the contexts stay the same but for the mode. -/
theorem update_decrypting {ctx : Context} (hmode : ctx.mode = .encrypt) {input : Bytes}
    (hsize : ctx.len + input.length ≤ 0xFFFFFFFE0) :
    update prim ctx.decrypting (update prim ctx input).2
      = ((update prim ctx input).1.decrypting, input) := by
  have hlength := length_updateAll prim ctx input
  rw [update_eq prim ctx hsize, update_eq prim _ (by rw [hlength]; exact hsize),
    updateAll_decrypting prim hmode, hlength]
  rfl

end Gcm

end Icl.Security
