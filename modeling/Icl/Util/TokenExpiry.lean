import Icl.Util.Jwt

namespace Icl.Util

open Icl.Cxx Icl.Format Icl.Json Icl.Security

/-!
# The expiry of a token

`CheckJWT` takes the members `iat` and `exp` for what `GetInteger` makes of them in 32 bits.

* `Jwt.Written` — what should be checked: the integers that are written in the payload;
* `Jwt.expiry_enforced_iff` — the payloads for which this is what is checked, at any time;
* `Jwt.expiryEnforced_of_plain` — those whose `iat` and `exp` are integers of 32 bits are among
  them;
* `Jwt.empty_payload_accepted` — an empty object is valid for ever.
-/

namespace Jwt

variable (hmac : Bytes → Bytes → Bytes)

/-- The member of a name; the last one, if there are several. -/
def lastMember (name : Bytes) (ms : List (List StrItem × Json)) : Option Json :=
  (ms.reverse.find? fun m => stringMeaning m.1 == name).map Prod.snd

/-- A member that is written as an integer. -/
def IntegerMember (ms : List (List StrItem × Json)) (name : Bytes) (z : Int) : Prop :=
  ∃ n : NumText, lastMember name ms = some (.number n) ∧ n.frac = none ∧ n.exp = none ∧ n.toInt = z

/-- The text is a JSON object, in which the integers `iat` and `exp` are written. -/
def Written (text : Bytes) (iat exp : Int) : Prop :=
  ∃ ms, JsonText (.object ms) text ∧ IntegerMember ms (ascii "iat") iat ∧
    IntegerMember ms (ascii "exp") exp

/-- Tokens with this payload are accepted only while they are valid. -/
def ExpiryEnforced (payload : Bytes) : Prop :=
  ∀ (header hash key : Bytes) (now : UInt32) (json json' : JsonValue),
    checkJwt hmac now header payload hash key json = .ok (true, json') →
    ∃ text iat exp, Base64.decode payload = .ok text ∧ Written text iat exp ∧
      (iat = exp ∨ now.toNat < exp)

/-- Where the text is taken for an object, the 32-bit values of its members are never valid, or the
    written integers are equal, or the time at which the token expires is not past the written
    one. -/
def BitsSuffice (text : Bytes) : Prop :=
  ∀ (json : JsonValue) (members : List (Bytes × JsonValue)),
    parseString json text = .ok (true, .object members) →
    let iatBits := memberBits members (ascii "iat")
    let expBits := memberBits members (ascii "exp")
    iatBits ≠ expBits ∧ expBits = 0 ∨
      ∃ iat exp, Written text iat exp ∧
        (iat = exp ∨ 2 ^ 32 ≤ exp ∨ iatBits ≠ expBits ∧ expBits.toNat ≤ exp)

/-- What an accepted token has been through. -/
theorem of_checkJwt {now : UInt32} {header payload hash key : Bytes} {json json' : JsonValue}
    (h : checkJwt hmac now header payload hash key json = .ok (true, json')) :
    ∃ text members, Base64.decode payload = .ok text ∧
      parseString json text = .ok (true, .object members) ∧
      (memberBits members (ascii "iat") = memberBits members (ascii "exp") ∨
        now < memberBits members (ascii "exp")) := by
  rw [checkJwt] at h
  split_ifs at h with hsigned
  · obtain ⟨text, hdecode, h⟩ := bind_eq_ok.mp h
    obtain ⟨⟨ok, value⟩, hparse, h⟩ := bind_eq_ok.mp h
    split at h
    · next members heq =>
      cases heq
      rw [uint32Member_eq (by decide), uint32Member_eq (by decide)] at h
      simp only [ok_bind, pure_eq_ok, Except.ok.injEq, Prod.mk.injEq, Bool.or_eq_true,
        decide_eq_true_eq] at h
      exact ⟨text, members, hdecode, hparse, h.1⟩
    · simp at h
  · simp at h

/-- The condition is enough. -/
theorem ExpiryEnforced.of_bitsSuffice {payload : Bytes}
    (h : ∀ text, Base64.decode payload = .ok text → BitsSuffice text) :
    ExpiryEnforced hmac payload := by
  intro header hash key now json json' hcheck
  obtain ⟨text, members, hdecode, hparse, hbits⟩ := of_checkJwt hmac hcheck
  rcases h text hdecode json members hparse with ⟨hne, hzero⟩ | ⟨iat, exp, hwritten, hexp⟩
  · -- It is never valid.
    rcases hbits with heq | hless
    · exact absurd heq hne
    · rw [hzero] at hless
      exact absurd hless (by simp [UInt32.lt_iff_toNat_lt])
  · refine ⟨text, iat, exp, hdecode, hwritten, ?_⟩
    have hnow := now.toNat_lt
    rcases hexp with heq | hlarge | ⟨hne, hle⟩
    · exact .inl heq
    · exact .inr (by omega)
    · have hless := UInt32.lt_iff_toNat_lt.mp (hbits.resolve_left hne)
      exact .inr (by omega)

/-- **When expiry is enforced.** -/
theorem expiry_enforced_iff (payload : Bytes) :
    ExpiryEnforced hmac payload ↔
      ∀ text, Base64.decode payload = .ok text → BitsSuffice text := by
  constructor
  · intro h text hdecode json members hparse
    -- Signed with any key, the payload is accepted at each time the two values allow.
    have haccepted : ∀ now : UInt32,
        memberBits members (ascii "iat") = memberBits members (ascii "exp") ∨
          now < memberBits members (ascii "exp") →
        ∃ iat exp, Written text iat exp ∧ (iat = exp ∨ now.toNat < exp) := by
      intro now hbits
      have hsigned := checkJwt_signed hmac now [] [] hdecode hparse
      rw [show (_ || _) = true by simpa using hbits] at hsigned
      obtain ⟨text', iat, exp, hdecode', hwritten, hexp⟩ := h [] _ [] now json _ hsigned
      obtain rfl : text = text' := Except.ok.inj (hdecode.symm.trans hdecode')
      exact ⟨iat, exp, hwritten, hexp⟩
    by_cases heq : memberBits members (ascii "iat") = memberBits members (ascii "exp")
    · -- The last time of all.
      obtain ⟨iat, exp, hwritten, hexp⟩ := haccepted (UInt32.ofNat (2 ^ 32 - 1)) (.inl heq)
      refine .inr ⟨iat, exp, hwritten, hexp.imp_right fun hlate => .inl ?_⟩
      have hmax : (UInt32.ofNat (2 ^ 32 - 1)).toNat = 2 ^ 32 - 1 := rfl
      omega
    · by_cases hzero : memberBits members (ascii "exp") = 0
      · exact .inl ⟨heq, hzero⟩
      · -- The last time at which it is valid.
        have hpos : 0 < (memberBits members (ascii "exp")).toNat :=
          Nat.pos_of_ne_zero fun h0 => hzero (UInt32.toNat_inj.mp h0)
        have hlt := (memberBits members (ascii "exp")).toNat_lt
        have hlast : (UInt32.ofNat ((memberBits members (ascii "exp")).toNat - 1)).toNat
            = (memberBits members (ascii "exp")).toNat - 1 :=
          UInt32.toNat_ofNat_of_lt' (show _ < 2 ^ 32 by omega)
        obtain ⟨iat, exp, hwritten, hexp⟩ := haccepted _
          (.inr (UInt32.lt_iff_toNat_lt.mpr (by rw [hlast]; omega)))
        refine .inr ⟨iat, exp, hwritten, hexp.imp_right fun hlate => .inr ⟨heq, ?_⟩⟩
        rw [hlast] at hlate
        omega
  · exact .of_bitsSuffice hmac

/-! ### Payloads as they are meant -/

theorem memberMeanings_eq_map (ms : List (List StrItem × Json)) :
    memberMeanings ms = ms.map fun m => (stringMeaning m.1, meaning m.2) := by
  induction ms with
  | nil => rfl
  | cons m ms ih => rw [memberMeanings, ih, List.map_cons]

/-- In the value of an object the last member of a name is found. -/
theorem find?_memberMeanings (name : Bytes) (ms : List (List StrItem × Json)) :
    OrdMap.find? name
        ((memberMeanings ms).foldl (fun m e => OrdMap.insertOrAssign e.1 e.2 m) [])
      = (lastMember name ms).map meaning := by
  rw [OrdMap.find?_foldl_insertOrAssign, memberMeanings_eq_map, ← List.map_reverse,
    OrdMap.find?_map, lastMember, Option.map_map, OrdMap.find?, Option.or_none]
  rfl

/-- The value of a member that is written as an integer of 32 bits. -/
theorem memberBits_written {ms : List (List StrItem × Json)} {name : Bytes} {z : Int}
    (h : IntegerMember ms name z) (hrange : 0 ≤ z ∧ z < 2 ^ 32) :
    ((memberBits ((memberMeanings ms).foldl (fun m e => OrdMap.insertOrAssign e.1 e.2 m) [])
      name).toNat : Int) = z := by
  obtain ⟨n, hlast, -, -, rfl⟩ := h
  have hfind := find?_memberMeanings name ms
  rw [hlast, Option.map_some, meaning] at hfind
  rw [memberBits_toNat hfind, Int.emod_eq_of_lt hrange.1 hrange.2]

/-- **Expiry is enforced on payloads as they are meant**: plain objects in which `iat` and `exp` are
    written as integers of 32 bits. -/
theorem expiryEnforced_of_plain {payload text : Bytes} {ms : List (List StrItem × Json)}
    {iat exp : Int} (hdecode : Base64.decode payload = .ok text)
    (htext : JsonText (.object ms) text) (hplain : Plain (.object ms))
    (hiat : IntegerMember ms (ascii "iat") iat) (hexp : IntegerMember ms (ascii "exp") exp)
    (hiatRange : 0 ≤ iat ∧ iat < 2 ^ 32) (hexpRange : 0 ≤ exp ∧ exp < 2 ^ 32) :
    ExpiryEnforced hmac payload := by
  refine .of_bitsSuffice hmac fun text' hdecode' => ?_
  obtain rfl : text = text' := Except.ok.inj (hdecode.symm.trans hdecode')
  intro json members hparse
  -- The 32-bit values are the written integers.
  rw [parseString_plain htext trivial hplain json] at hparse
  cases hparse
  have hi := memberBits_written hiat hiatRange
  have he := memberBits_written hexp hexpRange
  refine .inr ⟨iat, exp, ⟨ms, htext, hiat, hexp⟩, ?_⟩
  by_cases heq : iat = exp
  · exact .inl heq
  · refine .inr (.inr ⟨fun hbits => heq ?_, le_of_eq he⟩)
    rw [← hi, ← he, hbits]

/-! ### A payload with nothing in it -/

/-- The members of an object take some bytes. -/
theorem members_ne_nil {ms : List (List StrItem × Json)} {b : Bytes} (h : Derives (.members ms) b) :
    b ≠ [] := by
  cases h <;> simp [quoted]

/-- Nothing is written in an empty object. -/
theorem not_written_empty (iat exp : Int) : ¬ Written (ascii "\x7b\x7d") iat exp := by
  rintro ⟨ms, ⟨-, w, b, w', htext, -, hb, -⟩, ⟨n, hmember, -⟩, -⟩
  have hlength := congrArg List.length htext
  have htwo : (ascii "\x7b\x7d").length = 2 := rfl
  cases hb with
  | emptyObject => cases hmember
  | object hmembers =>
    have hpos := List.length_pos_of_ne_nil (members_ne_nil hmembers)
    simp only [htwo, List.length_append, List.length_cons, List.length_nil] at hlength
    omega

/-- A token without `iat` and `exp`. -/
theorem empty_payload_accepted : ¬ ∀ (hmac : Bytes → Bytes → Bytes) (payload : Bytes),
    ExpiryEnforced hmac payload := by
  intro h
  have hws : IsWs [] := by simp [IsWs]
  have htext : JsonText (.object []) (ascii "\x7b\x7d") :=
    ⟨⟨"\x7b\x7d".toList, by decide⟩, [], _, [], rfl, hws, .emptyObject hws, hws⟩
  have hparse : parseString .invalid (ascii "\x7b\x7d") = .ok (true, .object []) :=
    parseString_plain htext trivial trivial .invalid
  have hdecode : Base64.decode (ascii "e30=") = .ok (ascii "\x7b\x7d") := by decide
  obtain ⟨text, iat, exp, hdecode', hwritten, -⟩ := h (fun _ _ => smallDigest) (ascii "e30=") []
    (Base64.encode smallDigest) [] 0 .invalid _
    (checkJwt_signed (fun _ _ => smallDigest) 0 [] [] hdecode hparse)
  obtain rfl : ascii "\x7b\x7d" = text := Except.ok.inj (hdecode.symm.trans hdecode')
  exact not_written_empty iat exp hwritten

end Jwt

end Icl.Util
