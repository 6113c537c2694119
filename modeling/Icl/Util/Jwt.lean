import Icl.Json.KeyPath
import Icl.Json.Meaning
import Icl.Security.Base64Util

namespace Icl.Util

open Icl.Cxx Icl.Format Icl.Json Icl.Security

/-!
# `Jwt`

The model of `util/Jwt.h`: tokens that are signed with HMAC-SHA256, which is the parameter `hmac`
here, a function of the key and the message.

* `checkJwtStringToken_generateJwt` — a token that has been issued is accepted as long as it is
  valid.
-/

namespace Jwt

variable (hmac : Bytes → Bytes → Bytes)

/-- What is signed. -/
def inputSignature (header payload : Bytes) : Bytes := header ++ ascii "." ++ payload

/-- The header of the tokens that are issued. -/
def header : Bytes := ascii "\x7b\"alg\":\"HS256\",\"typ\":\"JWT\"\x7d"

/-- `Jwt::GenerateJWT`. -/
def generateJwt (payload key : Bytes) : Bytes :=
  let input := inputSignature (Base64.encode header) (Base64.encode payload)
  input ++ ascii "." ++ Base64.encode (hmac key input)

/-- A member, cast to a `uint32_t`. -/
def uint32Member (members : List (Bytes × JsonValue)) (name : Bytes) : Except Fault UInt32 := do
  let value ← objectGetValue members name
  return UInt32.ofInt value.getInteger

/-- `Jwt::CheckJWT`, at the time `now`: whether the token is accepted, and `json`.
    `HttpFileServer::CheckJWT` is the same, with `mSessionSecret` for the key. -/
def checkJwt (now : UInt32) (header payload hash key : Bytes) (json : JsonValue) :
    Except Fault (Bool × JsonValue) :=
  if Base64.encode (hmac key (inputSignature header payload)) = hash then do
    let decoded ← Base64.decode payload
    match ← parseString json decoded with
    | (true, .object members) => do
      let iat ← uint32Member members (ascii "iat")
      let exp ← uint32Member members (ascii "exp")
      return (iat = exp || now < exp, .object members)
    | (_, json) => return (false, json)
  else return (false, json)

/-- `Jwt::CheckJwtStringToken`, at the time `now`. -/
def checkJwtStringToken (now : UInt32) (token key : Bytes) : Except Fault Bool := do
  match ← split token (ascii ".") with
  | [header, payload, hash] => do
    let (valid, _) ← checkJwt hmac now header payload hash key .invalid
    return valid
  | _ => return false

/-! ### Members -/

/-- The low 32 bits of the integer at a name; 0 if there is none. -/
def memberBits (members : List (Bytes × JsonValue)) (name : Bytes) : UInt32 :=
  UInt32.ofInt ((OrdMap.find? name members).getD .invalid).getInteger

theorem uint32Member_eq {name : Bytes} (h : 0x3A ∉ name) (members : List (Bytes × JsonValue)) :
    uint32Member members name = .ok (memberBits members name) := by
  rw [uint32Member, objectGetValue_name h]
  rfl

/-- The casts keep the low 32 bits. -/
theorem memberBits_toNat {members : List (Bytes × JsonValue)} {name : Bytes} {z : Int}
    (h : OrdMap.find? name members = some (.integer z)) :
    ((memberBits members name).toNat : Int) = z % 2 ^ 32 := by
  have hmod : int32 z % 2 ^ 32 = z % 2 ^ 32 := by
    rw [int32]
    exact Int.bmod_emod
  have hnonneg := Int.emod_nonneg z (show (2 ^ 32 : Int) ≠ 0 by decide)
  have hlt := Int.emod_lt_of_pos z (show (0 : Int) < 2 ^ 32 by decide)
  rw [memberBits, h, Option.getD_some, JsonValue.getInteger, UInt32.ofInt, hmod,
    UInt32.toNat_ofNat']
  omega

/-- **`CheckJWT` on a signed payload** that is an object. -/
theorem checkJwt_signed (now : UInt32) (header key : Bytes) {payload text : Bytes}
    {json : JsonValue} {members : List (Bytes × JsonValue)}
    (hdecode : Base64.decode payload = .ok text)
    (hparse : parseString json text = .ok (true, .object members)) :
    checkJwt hmac now header payload (Base64.encode (hmac key (inputSignature header payload))) key
        json
      = .ok (memberBits members (ascii "iat") = memberBits members (ascii "exp") ||
          now < memberBits members (ascii "exp"), .object members) := by
  have hiat := uint32Member_eq (show 0x3A ∉ ascii "iat" by decide) members
  have hexp := uint32Member_eq (show 0x3A ∉ ascii "exp" by decide) members
  simp only [checkJwt, if_true, hdecode, ok_bind, hparse, hiat, hexp, pure_eq_ok]

/-! ### Issued tokens -/

/-- The separator is no character of an encoded text. -/
theorem dot_not_mem_encode (bytes : Bytes) : 0x2E ∉ Base64.encode bytes := fun h =>
  (Base64.mem_encode bytes 0x2E h).elim (by decide) (by decide)

/-- An issued token is cut into its three parts again. -/
theorem split_generateJwt (payload key : Bytes) :
    split (generateJwt hmac payload key) (ascii ".")
      = .ok [Base64.encode header, Base64.encode payload, Base64.encode
          (hmac key (inputSignature (Base64.encode header) (Base64.encode payload)))] := by
  have hdot : ascii "." = [0x2E] := rfl
  rw [generateJwt, hdot, split_single]
  simp only [inputSignature, hdot, List.append_assoc, List.cons_append, List.nil_append]
  rw [splitOn_cons (dot_not_mem_encode _), splitOn_cons (dot_not_mem_encode _),
    splitOn_of_not_mem (dot_not_mem_encode _)]

/-- **Issued tokens are accepted.**  The token has three parts, the last of them is what is computed
    from the first two, the second one is the payload again, and the check succeeds. -/
theorem checkJwtStringToken_generateJwt (key payload : Bytes) (now : UInt32)
    (members : List (Bytes × JsonValue)) (iat exp : Int) (hsize : payload.length < 2 ^ 30)
    (hparse : parseString .invalid payload = .ok (true, .object members))
    (hiat : OrdMap.find? (ascii "iat") members = some (.integer iat))
    (hexp : OrdMap.find? (ascii "exp") members = some (.integer exp))
    (hiatRange : 0 ≤ iat ∧ iat < 2 ^ 32) (hexpRange : 0 ≤ exp ∧ exp < 2 ^ 32)
    (hvalid : iat = exp ∨ now.toNat < exp) :
    split (generateJwt hmac payload key) (ascii ".")
      = .ok [Base64.encode header, Base64.encode payload, Base64.encode
          (hmac key (inputSignature (Base64.encode header) (Base64.encode payload)))] ∧
    Base64.decode (Base64.encode payload) = .ok payload ∧
    checkJwtStringToken hmac now (generateJwt hmac payload key) key = .ok true := by
  have hsplit := split_generateJwt hmac payload key
  have hdecode := Base64.decode_encode hsize
  refine ⟨hsplit, hdecode, ?_⟩
  rw [checkJwtStringToken, hsplit, ok_bind]
  simp only [checkJwt_signed hmac now _ key hdecode hparse, ok_bind, pure_eq_ok, Except.ok.injEq,
    Bool.or_eq_true, decide_eq_true_eq]
  -- The members fit into 32 bits.
  have hi := memberBits_toNat hiat
  have he := memberBits_toNat hexp
  rw [Int.emod_eq_of_lt hiatRange.1 hiatRange.2] at hi
  rw [Int.emod_eq_of_lt hexpRange.1 hexpRange.2] at he
  rcases hvalid with rfl | hless
  · exact .inl (UInt32.toNat_inj.mp (by omega))
  · exact .inr (UInt32.lt_iff_toNat_lt.mpr (by omega))

/-- A payload of two members. -/
def smallPayload : Bytes := ascii "\x7b\"iat\":2,\"exp\":4\x7d"

theorem parseString_smallPayload : parseString .invalid smallPayload
    = .ok (true, .object [(ascii "exp", .integer 4), (ascii "iat", .integer 2)]) := by
  have hdigit : ∀ d ∈ [(0x32 : UInt8), 0x34], NumText.Valid ⟨false, [d], none, none⟩ := by
    intro d hd
    have hplain : isdigit d = true ∧ d ≠ 0x30 := by
      rcases List.mem_pair.mp hd with rfl | rfl <;> decide
    exact
      { int := by simpa [Digits] using hplain.1
        frac := by simp
        exp := by simp
        int_ne_nil := by simp
        no_leading_zero := by simp [hplain.2]
        frac_ne_nil := by simp
        exp_ne_nil := by simp }
  have hws : IsWs [] := by simp [IsWs]
  have hiat : ∀ i ∈ [StrItem.raw 0x69, .raw 0x61, .raw 0x74], i.Valid := by simp [StrItem.Valid]
  have hexp : ∀ i ∈ [StrItem.raw 0x65, .raw 0x78, .raw 0x70], i.Valid := by simp [StrItem.Valid]
  -- The derivation follows the text: an object of two members.
  have hderives := Derives.object (.nextMember hws hiat hws hws
    (.number (hdigit 0x32 (by simp))) hws (.lastMember hws hexp hws hws
      (.number (hdigit 0x34 (by simp))) hws))
  have htext : JsonText _ smallPayload :=
    ⟨⟨"\x7b\"iat\":2,\"exp\":4\x7d".toList, by decide⟩, [], _, [], rfl, hws, hderives, hws⟩
  exact parseString_plain htext trivial (by simp [Plain, PlainMembers, PlainString]) .invalid

/-- The HMAC-SHA256 of the token of this payload, with the key `secret`. -/
def smallDigest : Bytes :=
  [0xcf, 0x21, 0x87, 0xf7, 0x75, 0xd2, 0x2f, 0xd6, 0x1c, 0x34, 0xf7, 0x3d, 0x0f, 0x12, 0xdc, 0x97,
    0x2c, 0x17, 0x2c, 0xf5, 0xb5, 0xf7, 0x00, 0xfe, 0xc4, 0xa7, 0x9d, 0x78, 0x8f, 0x1a, 0xed, 0x05]

theorem checkJwtStringToken_generateJwt_small :
    checkJwtStringToken (fun _ _ => smallDigest) 3
      (generateJwt (fun _ _ => smallDigest) smallPayload (ascii "secret")) (ascii "secret")
      = .ok true :=
  (checkJwtStringToken_generateJwt (fun _ _ => smallDigest) (ascii "secret") smallPayload 3 _ 2 4
    (by decide) parseString_smallPayload rfl rfl (by decide) (by decide) (by decide)).2.2

end Jwt

end Icl.Util
