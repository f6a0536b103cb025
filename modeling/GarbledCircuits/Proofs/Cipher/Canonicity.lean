import GarbledCircuits.Proofs.Cipher.Codec

/-!
# The one sealing of a payload

Payloads of full size and the rows that open correspond one to one, and a
shorter payload is sealed as if it had been filled up with zeros.  A row with
another tag than its own does not open.  A payload or a buffer of a wrong size
is refused before anything is written.
-/

namespace GarbledCircuits.Session

variable {scheme : Scheme} {session : Session scheme}
  {key : MultiKey} {tweak plaintext buffer : List UInt8}

/-! ## Payloads that are filled up -/

theorem sealUnder_rightpad (plaintext : List UInt8) :
    scheme.sealUnder key tweak (plaintext.rightpad scheme.payloadSize 0) =
      scheme.sealUnder key tweak plaintext := by
  simp only [Scheme.sealUnder, sealWith, List.rightpad,
    maskBytes_append_zeros]

/-- A sealed payload is opened to the payload, filled up with zeros. -/
theorem decrypt_sealUnder
    (hkey : session.key = some key) (htweak : session.tweak = some tweak)
    (hlength : plaintext.length ≤ scheme.payloadSize) :
    session.decrypt (scheme.sealUnder key tweak plaintext) =
      .ok (plaintext.rightpad scheme.payloadSize 0) := by
  have hfull : (plaintext.rightpad scheme.payloadSize 0).length =
      scheme.payloadSize := by
    rw [List.length_rightpad]
    exact max_eq_left hlength
  exact (decrypt_eq_ok_iff hkey htweak).mpr
    ⟨hfull, sealUnder_rightpad plaintext⟩

theorem decrypt_eq_ok_iff_encrypt_eq_ok
    (hkey : session.key = some key) (htweak : session.tweak = some tweak)
    {row payload : List UInt8} (hlength : payload.length = scheme.payloadSize) :
    session.decrypt row = .ok payload ↔ session.encrypt payload = .ok row := by
  rw [decrypt_eq_ok_iff hkey htweak, encrypt_eq_ok_iff hkey htweak,
    iff_true_intro hlength, iff_true_intro hlength.le]

/-! ## Buffers -/

theorem encryptInto_of_long_plaintext
    (hplaintext : scheme.payloadSize < plaintext.length) :
    session.encryptInto plaintext buffer =
      (buffer, .error
        (.plaintextTooLong plaintext.length scheme.payloadSize)) := by
  simp only [encryptInto, encryptSized, if_pos hplaintext]
  rfl

theorem encryptInto_of_long_buffer
    (hplaintext : plaintext.length ≤ scheme.payloadSize)
    (hbuffer : scheme.cipherSize < buffer.length) :
    session.encryptInto plaintext buffer =
      (buffer, .error
        (.ciphertextTooLong buffer.length scheme.cipherSize)) := by
  simp only [encryptInto, encryptSized, if_neg hplaintext.not_gt,
    checkCipherSize, if_pos hbuffer]
  rfl

theorem encryptInto_of_short_buffer
    (hplaintext : plaintext.length ≤ scheme.payloadSize)
    (hbuffer : buffer.length < scheme.cipherSize) :
    session.encryptInto plaintext buffer =
      (buffer, .error
        (.ciphertextTooShort buffer.length scheme.cipherSize)) := by
  simp only [encryptInto, encryptSized, if_neg hplaintext.not_gt,
    checkCipherSize, if_neg hbuffer.not_gt, if_pos hbuffer]
  rfl

/-- A buffer of the size of a row is filled with the row. -/
theorem encryptInto_of_fits
    (hbuffer : buffer.length = scheme.cipherSize) {row : List UInt8}
    (hencrypt : session.encrypt plaintext = .ok row) :
    session.encryptInto plaintext buffer = (row, .ok ()) := by
  rw [encrypt] at hencrypt
  rw [encryptInto, hbuffer, hencrypt]

/-! ## Sealing and opening under one multi-key and tweak -/

/-- Under any multi-key and any tweak of the right size, opening inverts
sealing and accepts nothing else, and sealing leaves a buffer alone if a size
is wrong. -/
theorem opens_exactly_what_is_sealed
    (scheme : Scheme) (key : MultiKey) {tweak : List UInt8}
    (htweak : tweak.length = scheme.tweakSize) :
    ∃ session : Session scheme,
      (({} : Session scheme).setKey key).setTweak tweak = .ok session ∧
      (∀ plaintext : List UInt8, plaintext.length ≤ scheme.payloadSize →
        ∃ row, session.encrypt plaintext = .ok row ∧
          row.length = scheme.cipherSize ∧
          session.decrypt row =
            .ok (plaintext.rightpad scheme.payloadSize 0)) ∧
      (∀ row payload : List UInt8, payload.length = scheme.payloadSize →
        (session.decrypt row = .ok payload ↔
          session.encrypt payload = .ok row)) ∧
      (∀ payload : List UInt8, payload.length = scheme.payloadSize →
        ∃! row, session.decrypt row = .ok payload) ∧
      (∀ plaintext row changed : List UInt8,
        session.encrypt plaintext = .ok row →
        changed.length = row.length →
        withoutTag changed = withoutTag row → changed ≠ row →
          session.decrypt changed = .error .integrityCheckFailed) ∧
      ∀ plaintext buffer : List UInt8,
        (scheme.payloadSize < plaintext.length →
          session.encryptInto plaintext buffer =
            (buffer, .error
              (.plaintextTooLong plaintext.length scheme.payloadSize))) ∧
        (plaintext.length ≤ scheme.payloadSize →
          (scheme.cipherSize < buffer.length →
            session.encryptInto plaintext buffer =
              (buffer, .error
                (.ciphertextTooLong buffer.length scheme.cipherSize))) ∧
          (buffer.length < scheme.cipherSize →
            session.encryptInto plaintext buffer =
              (buffer, .error
                (.ciphertextTooShort buffer.length scheme.cipherSize))) ∧
          (buffer.length = scheme.cipherSize →
            ∃ row, session.encrypt plaintext = .ok row ∧
              session.encryptInto plaintext buffer = (row, .ok ()))) := by
  have hset : (({} : Session scheme).setKey key).setTweak tweak =
      .ok ⟨some key, some tweak⟩ := by
    simp [setTweak, setKey, htweak]
  have hseals : ∀ plaintext : List UInt8,
      plaintext.length ≤ scheme.payloadSize →
        (⟨some key, some tweak⟩ : Session scheme).encrypt plaintext =
          .ok (scheme.sealUnder key tweak plaintext) := by
    intro plaintext hlength
    exact (encrypt_eq_ok_iff rfl rfl).mpr ⟨hlength, rfl⟩
  have hopens : ∀ plaintext : List UInt8,
      plaintext.length ≤ scheme.payloadSize →
        (⟨some key, some tweak⟩ : Session scheme).decrypt
            (scheme.sealUnder key tweak plaintext) =
          .ok (plaintext.rightpad scheme.payloadSize 0) := by
    intro plaintext hlength
    exact decrypt_sealUnder rfl rfl hlength
  refine ⟨⟨some key, some tweak⟩, hset, ?_, ?_, ?_, ?_, ?_⟩
  · intro plaintext hlength
    exact ⟨_, hseals plaintext hlength, Scheme.length_sealUnder ..,
      hopens plaintext hlength⟩
  · intro row payload hlength
    exact decrypt_eq_ok_iff_encrypt_eq_ok rfl rfl hlength
  · intro payload hlength
    refine ⟨scheme.sealUnder key tweak payload, ?_, ?_⟩
    · exact (decrypt_eq_ok_iff rfl rfl).mpr ⟨hlength, rfl⟩
    · intro row hrow
      exact ((decrypt_eq_ok_iff rfl rfl).mp hrow).2.symm
  · intro plaintext row changed hrow hlength hpayload hne
    have hfits := ((encrypt_eq_ok_iff rfl rfl).mp hrow).1
    rw [hseals plaintext hfits, Except.ok.injEq] at hrow
    have hopen := hopens plaintext hfits
    rw [hrow] at hopen
    exact decrypt_of_other_tag hopen hlength hpayload hne
  · intro plaintext buffer
    constructor
    · exact encryptInto_of_long_plaintext
    · intro hplaintext
      refine ⟨encryptInto_of_long_buffer hplaintext,
        encryptInto_of_short_buffer hplaintext, ?_⟩
      intro hbuffer
      have hrow := hseals plaintext hplaintext
      exact ⟨_, hrow, encryptInto_of_fits hbuffer hrow⟩

/-- Three bytes are sealed over AES-128 and opened as a key, unless a byte of
the tag is changed; a buffer without room stays empty. -/
theorem opens_exactly_what_is_sealed_three_bytes :
    (List.replicate 16 7 : List UInt8).length = Scheme.fixedKeyAes.tweakSize ∧
      ∃ (session : Session .fixedKeyAes) (row : List UInt8),
        session.encrypt [1, 2, 3] = .ok row ∧
        session.decrypt row = .ok ([1, 2, 3] ++ List.replicate 13 0) ∧
        session.decrypt (row.modify 31 (· + 1)) =
          .error .integrityCheckFailed ∧
        session.encryptInto [1, 2, 3] [] =
          ([], .error (.ciphertextTooShort 0 32)) := by
  refine ⟨rfl, ?_⟩
  obtain ⟨session, _, hopens, _, _, htags, hbuffers⟩ :=
    opens_exactly_what_is_sealed .fixedKeyAes ⟨List.replicate 16 0⟩
      (rfl : (List.replicate 16 7 : List UInt8).length = _)
  obtain ⟨row, hrow, hlength, hopen⟩ := hopens [1, 2, 3] (by decide)
  have hsize : row.length = 32 := hlength
  have hpayload : withoutTag (row.modify 31 (· + 1)) = withoutTag row := by
    simp [withoutTag, hsize, tagSize, List.take_modify,
      List.modify_eq_self]
  have hne : row.modify 31 (· + 1) ≠ row := by
    intro hsame
    have hlast := congrArg (·[31]?) hsame
    simp [hsize] at hlast
  exact ⟨session, row, hrow, hopen,
    htags _ row _ hrow (List.length_modify ..) hpayload hne,
    ((hbuffers [1, 2, 3] []).2 (by decide)).2.1 (by decide)⟩

end GarbledCircuits.Session
