import Bitcoin.Proofs.Text.Bech32
import Bitcoin.Proofs.Text.Digits
import Bitcoin.Transaction

/-!
# Addresses, read back

A witness program of a legal length is read back from its address
(`decode?_of_encode?`). Scripts that are classified as one of the types with
addresses fit its template (`fits_of_classify`), and from its address each is read
back (`exists_decode_of_fits`): addresses of witness programs begin with the
human-readable part of the network, those of hashes with a digit, so the text
tells in which of both forms it is.
-/

namespace Bitcoin

namespace Segwit

theorem encode?_eq_some_iff {version : Nat} {program : Bytes} {text : String} :
    encode? version program = some text ↔ allowsLength version program.length = true ∧
      text = Bech32.encode (checksumKind version) mainnet (version :: Bech32.toGroups program) := by
  unfold encode?
  split
  · rename_i h
    rw [Option.some.injEq]
    exact ⟨fun he => ⟨h, he.symm⟩, fun he => he.2.symm⟩
  · rename_i h
    exact ⟨nofun, fun he => (h he.1).elim⟩

theorem length_le_of_allowsLength {version length : Nat} (h : allowsLength version length = true) : length ≤ 40 := by
  unfold allowsLength at h
  split at h <;> simp at h <;> omega

theorem decode?_of_parts? {text : String} {human : List Char} {version : Nat} {rest check : List Nat} {program : Bytes}
    (hp : Bech32.parts? text = some (human, version :: rest ++ check)) (hl : check.length = 6) (hv : version ≤ 16)
    (hc : Bech32.verifies (checksumKind version) human (version :: rest ++ check) = true)
    (hr : Bech32.ofGroups? rest = some program) (ha : allowsLength version program.length = true) :
    decode? text = some (String.ofList human, version, program) := by
  have hn : (version :: rest ++ check).length - 6 = (version :: rest).length := by
    rw [List.length_append, hl, Nat.add_sub_cancel]
  have ht : ((version :: rest ++ check).take ((version :: rest ++ check).length - 6)).drop 1 = rest := by
    rw [hn, List.take_left]
    rfl
  have hs : version ≤ 16 ∧ 6 < (version :: rest ++ check).length := by
    rw [List.length_append, hl, List.length_cons]
    omega
  have hh : (version :: rest ++ check).head? = some version := rfl
  rw [decode?, hp, Option.bind_eq_bind, Option.bind_some]
  dsimp only
  rw [hh, Option.bind_eq_bind, Option.bind_some, Bech32.guard_of hs, Bech32.guard_of hc, ht, hr]
  show (guard (allowsLength version program.length = true) >>= fun _ => some _) = _
  rw [Bech32.guard_of ha]
  rfl

/-- A witness program is read back from its address. -/
theorem decode?_of_encode? {version : Nat} {program : Bytes} {text : String} (hv : version ≤ 16)
    (h : encode? version program = some text) : decode? text = some (mainnet, version, program) := by
  obtain ⟨ha, rfl⟩ := encode?_eq_some_iff.1 h
  have hg : ∀ g ∈ version :: Bech32.toGroups program, g < 32 :=
    List.forall_mem_cons.2 ⟨by omega, Bech32.lt_of_mem_fives⟩
  have hl : mainnet.toList.length + (version :: Bech32.toGroups program).length + 7 ≤ 90 := by
    have hp := length_le_of_allowsLength ha
    have ht := Bech32.length_toGroups_le program
    rw [List.length_cons]
    show 2 + _ + 7 ≤ 90
    omega
  exact decode?_of_parts? (Bech32.parts?_encode _ (by decide) (by decide) (by decide) hg hl)
    (Bech32.length_checksum _ _ _) hv (Bech32.verifies_append_checksum _ (by decide) _)
    (Bech32.ofGroups?_toGroups program) ha

theorem isPrefixOf_of_encode? {version : Nat} {program : Bytes} {text : String}
    (h : encode? version program = some text) : mainnet.toList.isPrefixOf text.toList = true := by
  rw [(encode?_eq_some_iff.1 h).2, Bech32.toList_encode]
  exact List.isPrefixOf_iff_prefix.2 (List.prefix_append _ _)

end Segwit

namespace OutputType

open Script

/-- The types that have addresses. -/
def addressed : List OutputType := [p2pkh, p2sh, p2wpkh, p2wsh, p2tr]

/-- A script is the one that a type has for some hash or program. -/
def Fits : OutputType → Bytes → Prop
  | p2pkh, script => ∃ hash : Bytes, hash.length = 20 ∧ script = payToKeyHash hash
  | p2sh, script => ∃ hash : Bytes, hash.length = 20 ∧ script = payToScriptHash hash
  | p2wpkh, script => ∃ program : Bytes, program.length = 20 ∧ script = payToProgram 0 program
  | p2wsh, script => ∃ program : Bytes, program.length = 32 ∧ script = payToProgram 0 program
  | p2tr, script => ∃ program : Bytes, program.length = 32 ∧ script = payToProgram 1 program
  | opReturn, _ | other _, _ => False

/-- A script that begins and ends in certain ways, with a hash between. -/
theorem exists_eq_append {script back : Bytes} (front : Bytes) (n : Nat)
    (hl : script.length = front.length + n + back.length) (hf : script.take front.length = front)
    (hb : script.drop (front.length + n) = back) :
    ∃ hash : Bytes, hash.length = n ∧ script = front ++ hash ++ back := by
  refine ⟨(script.drop front.length).take n, ?_, ?_⟩
  · rw [List.length_take, List.length_drop]
    omega
  · calc script = script.take front.length ++ script.drop front.length := (List.take_append_drop _ _).symm
      _ = front ++ ((script.drop front.length).take n ++ (script.drop front.length).drop n) := by
          rw [hf, List.take_append_drop]
      _ = front ++ (script.drop front.length).take n ++ back := by rw [List.drop_drop, hb, List.append_assoc]

theorem exists_eq_payToProgram {script : Bytes} (version n : Nat) (hl : script.length = n + 2)
    (ht : script.take 2 = [if version = 0 then 0x00 else UInt8.ofNat (0x50 + version), UInt8.ofNat n]) :
    ∃ program : Bytes, program.length = n ∧ script = payToProgram version program := by
  have hn : (script.drop 2).length = n := by rw [List.length_drop, hl, Nat.add_sub_cancel]
  refine ⟨script.drop 2, hn, ?_⟩
  calc script = script.take 2 ++ script.drop 2 := (List.take_append_drop 2 script).symm
    _ = payToProgram version (script.drop 2) := by
        rw [ht, payToProgram, hn]
        rfl

theorem fits_of_classify {script : Bytes} {type : OutputType} (h : classify script = type)
    (ha : type ∈ addressed) : type.Fits script := by
  unfold classify at h
  split at h
  · rename_i hs
    subst h
    exact exists_eq_append [0x76, 0xa9, 0x14] 20 hs.1 hs.2.1 hs.2.2
  split at h
  · rename_i hs
    subst h
    exact exists_eq_append [0xa9, 0x14] 20 hs.1 hs.2.1 hs.2.2
  split at h
  · rename_i hs
    subst h
    exact exists_eq_payToProgram 0 20 hs.1 hs.2
  split at h
  · rename_i hs
    subst h
    exact exists_eq_payToProgram 0 32 hs.1 hs.2
  split at h
  · rename_i hs
    subst h
    exact exists_eq_payToProgram 1 32 hs.1 hs.2
  -- what is left are the types without an address
  split at h <;>
  · subst h
    exact absurd ha (by decide)

end OutputType

namespace Address

open Script OutputType

/-- A text that begins with another character is read as that of a hash. -/
theorem decode_of_head?_ne {text : String} (h : text.toList.head? ≠ some 'b') : decode text = decodeHash text := by
  have hp : Segwit.mainnet.toList.isPrefixOf text.toList = false := by
    cases hc : text.toList with
    | nil => rfl
    | cons c cs =>
      rw [hc] at h
      have hb : ('b' == c) = false := beq_eq_false_iff_ne.2 fun hb => h (congrArg some hb.symm)
      show ('b' == c && _) = false
      rw [hb, Bool.false_and]
  rw [decode, hp, if_neg Bool.false_ne_true]

theorem decodeHash_encodeCheck {hash : Bytes} (version : UInt8) (hl : hash.length = 20) :
    decodeHash (Base58.encodeCheck (version :: hash)) =
      if version = keyHashVersion then .ok (payToKeyHash hash)
      else if version = scriptHashVersion then .ok (payToScriptHash hash)
      else .error (.address (.unknownVersion version)) := by
  rw [decodeHash, Base58.decodeCheck_encodeCheck]
  exact if_neg (not_not_intro hl)

theorem decode_encodeCheck_keyHash {hash : Bytes} (hl : hash.length = 20) :
    decode (Base58.encodeCheck (keyHashVersion :: hash)) = .ok (payToKeyHash hash) := by
  rw [decode_of_head?_ne, decodeHash_encodeCheck _ hl, if_pos rfl]
  rw [Base58.encodeCheck, List.cons_append, keyHashVersion, Base58.head?_encode_zero_cons]
  decide

theorem decode_encodeCheck_scriptHash {hash : Bytes} (hl : hash.length = 20) :
    decode (Base58.encodeCheck (scriptHashVersion :: hash)) = .ok (payToScriptHash hash) := by
  rw [decode_of_head?_ne, decodeHash_encodeCheck _ hl, if_neg (by decide), if_pos rfl]
  rw [Base58.encodeCheck, List.cons_append, scriptHashVersion, Base58.head?_encode_five_cons]
  · decide
  · rw [List.length_append, hl, Base58.length_checksum]

/-- A witness program is read back from its address, as the script that pays to it. -/
theorem exists_decode_encodeProgram {version : Nat} {program : Bytes} (hv : version ≤ 16)
    (ha : Segwit.allowsLength version program.length = true) :
    ∃ a, encodeProgram version program = .ok a ∧ decode a = .ok (payToProgram version program) := by
  have he := Segwit.encode?_eq_some_iff.2 ⟨ha, rfl⟩
  refine ⟨_, by rw [encodeProgram, he], ?_⟩
  rw [decode, if_pos (Segwit.isPrefixOf_of_encode? he), decodeProgram, Segwit.decode?_of_encode? hv he]
  exact if_pos rfl

theorem encode_payToKeyHash {hash : Bytes} (hl : hash.length = 20) :
    encode .p2pkh (payToKeyHash hash) = .ok (Base58.encodeCheck (keyHashVersion :: hash)) := by
  have hs : (payToKeyHash hash).length = 25 := by simp [payToKeyHash, hl]
  have ht : ((payToKeyHash hash).drop 3).take 20 = hash := List.take_left' hl
  rw [encode, if_pos hs, ht]

theorem encode_payToScriptHash {hash : Bytes} (hl : hash.length = 20) :
    encode .p2sh (payToScriptHash hash) = .ok (Base58.encodeCheck (scriptHashVersion :: hash)) := by
  have hs : (payToScriptHash hash).length = 23 := by simp [payToScriptHash, hl]
  have ht : ((payToScriptHash hash).drop 2).take 20 = hash := List.take_left' hl
  rw [encode, if_pos hs, ht]

theorem two_lt_length_payToProgram {version : Nat} {program : Bytes} (h : 0 < program.length) :
    2 < (payToProgram version program).length := by
  rw [payToProgram, List.length_cons, List.length_cons]
  omega

/-- A script that fits the template of a type is read back from its address. -/
theorem exists_decode_of_fits {type : OutputType} {script : Bytes} (h : type.Fits script) :
    ∃ a, encode type script = .ok a ∧ decode a = .ok script := by
  cases type with
  | p2pkh =>
    obtain ⟨hash, hl, rfl⟩ := h
    exact ⟨_, encode_payToKeyHash hl, decode_encodeCheck_keyHash hl⟩
  | p2sh =>
    obtain ⟨hash, hl, rfl⟩ := h
    exact ⟨_, encode_payToScriptHash hl, decode_encodeCheck_scriptHash hl⟩
  | p2wpkh | p2wsh | p2tr =>
    obtain ⟨program, hl, rfl⟩ := h
    rw [encode, if_pos (two_lt_length_payToProgram (by omega))]
    refine exists_decode_encodeProgram (by decide) ?_
    show Segwit.allowsLength _ program.length = true
    rw [hl]
    rfl
  | opReturn | other => exact h.elim

theorem toOption_encode_of_not_mem {type : OutputType} (h : type ∉ addressed) (script : Bytes) :
    (encode type script).toOption = none := by
  cases type with
  | opReturn | other => rfl
  | p2pkh | p2sh | p2wpkh | p2wsh | p2tr => exact absurd (by decide) h

end Address

end Bitcoin
