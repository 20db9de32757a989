/-
Ideal authenticated encryption with additional data.

Every encryption is recorded.  A decryption succeeds for what has been recorded, under the same key
and with the same additional data, and for nothing else: nobody can make a ciphertext without
the key.

* `Scheme` — what an encryption yields: as many bytes as the text, and a tag that tells all inputs
  apart;
* `Scheme.decrypt` — decryption against the record;
* **`decrypt_eq_some`** — a decryption that succeeds yields the text of a recorded encryption.
-/
import Mathlib.Data.List.Basic

namespace Aead

variable {K B T : Type}

/-- An encryption, as a function of the key, the additional data and the text. -/
structure Scheme (K B T : Type) where
  encrypt : K → List B → List B → List B × T
  length_encrypt : ∀ k a p, (encrypt k a p).1.length = p.length
  injective : ∀ k a a' p p', encrypt k a p = encrypt k a' p' → a = a' ∧ p = p'

/-- What is recorded of an encryption. -/
structure Entry (K B : Type) where
  key : K
  aad : List B
  text : List B
  deriving DecidableEq

variable [DecidableEq K] [DecidableEq B] [DecidableEq T] (sch : Scheme K B T)
  {log : List (Entry K B)} {k : K} {a a' p c : List B} {t : T}

/-- The text of a recorded encryption with this result. -/
def Scheme.decrypt (log : List (Entry K B)) (k : K) (a c : List B) (t : T) : Option (List B) :=
  (log.find? fun e => e.key = k ∧ e.aad = a ∧ sch.encrypt k a e.text = (c, t)).map Entry.text

/-- **Authenticity.**  Only recorded encryptions are decrypted. -/
theorem decrypt_eq_some :
    sch.decrypt log k a c t = some p ↔ ⟨k, a, p⟩ ∈ log ∧ sch.encrypt k a p = (c, t) := by
  constructor
  · intro h
    obtain ⟨e, he, rfl⟩ := Option.map_eq_some_iff.mp h
    have hmem := List.mem_of_find?_eq_some he
    have hmatch := List.find?_some he
    obtain ⟨rfl, rfl, hc⟩ := of_decide_eq_true hmatch
    exact ⟨hmem, hc⟩
  · rintro ⟨hmem, hc⟩
    cases hfind : log.find? fun e => e.key = k ∧ e.aad = a ∧ sch.encrypt k a e.text = (c, t) with
    | none =>
      have hnone := List.find?_eq_none.mp hfind ⟨k, a, p⟩ hmem
      exact absurd (decide_eq_true ⟨rfl, rfl, hc⟩) hnone
    | some e =>
      -- another entry with the same result has the same text
      have hmatch := List.find?_some hfind
      obtain ⟨-, -, he⟩ := of_decide_eq_true hmatch
      rw [Scheme.decrypt, hfind, Option.map_some]
      exact congrArg some (sch.injective k a a e.text p (he.trans hc.symm)).2

/-- With other additional data an encryption is rejected. -/
theorem decrypt_ne_aad (h : a ≠ a') :
    sch.decrypt log k a' (sch.encrypt k a p).1 (sch.encrypt k a p).2 = none := by
  cases hd : sch.decrypt log k a' (sch.encrypt k a p).1 (sch.encrypt k a p).2 with
  | none => rfl
  | some p' =>
    have he := ((decrypt_eq_some sch).mp hd).2
    exact absurd (sch.injective k a' a p' p he).1.symm h

end Aead
