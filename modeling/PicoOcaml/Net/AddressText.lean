import PicoOcaml.Net
import PicoOcaml.Pio.Network

/-! IPv4 addresses as the text that `ip_to_string` makes of them. -/
namespace PicoOcaml.Net

open NetStubs Pio

/-- `a.b.c.d`. -/
def dotted (a b c d : ℕ) : String :=
  toString a ++ "." ++ toString b ++ "." ++ toString c ++ "." ++ toString d

theorem toDigits_inj {m n : ℕ} (h : Nat.toDigits 10 m = Nat.toDigits 10 n) : m = n := by
  rw [← Nat.ofDigitChars_ten_toDigits (n := m), h, Nat.ofDigitChars_ten_toDigits]

theorem dot_notMem_toDigits (n : ℕ) : '.' ∉ Nat.toDigits 10 n := by
  intro hmem
  exact absurd (Nat.isDigit_of_mem_toDigits (by omega) (by omega) hmem) (by decide)

/-- The first part ends at the first separator. -/
theorem append_sep_inj {α : Type*} {sep : α} {x x' z z' : List α} (hx : sep ∉ x) (hx' : sep ∉ x')
    (h : x ++ sep :: z = x' ++ sep :: z') : x = x' ∧ z = z' := by
  induction x generalizing x' with
  | nil => cases x' with
    | nil => exact ⟨rfl, (List.cons.inj h).2⟩
    | cons y x' => exact absurd (List.cons.inj h).1 (List.ne_of_not_mem_cons hx')
  | cons y x ih => cases x' with
    | nil => exact absurd (List.cons.inj h).1.symm (List.ne_of_not_mem_cons hx)
    | cons y' x' =>
      obtain ⟨rfl, hrest⟩ := List.cons.inj h
      obtain ⟨rfl, rfl⟩ := ih (List.not_mem_of_not_mem_cons hx) (List.not_mem_of_not_mem_cons hx')
        hrest
      exact ⟨rfl, rfl⟩

theorem toList_dotted (a b c d : ℕ) : (dotted a b c d).toList =
    Nat.toDigits 10 a ++ '.' :: (Nat.toDigits 10 b ++ '.' :: (Nat.toDigits 10 c ++ '.' ::
      Nat.toDigits 10 d)) := by
  simp [dotted, String.toList_append]

/-- The text has the four numbers in it: no number contains a dot. -/
theorem dotted_inj {a b c d a' b' c' d' : ℕ} :
    dotted a b c d = dotted a' b' c' d' ↔ a = a' ∧ b = b' ∧ c = c' ∧ d = d' := by
  constructor
  · intro h
    have hlist := congrArg String.toList h
    rw [toList_dotted, toList_dotted] at hlist
    have hdot := dot_notMem_toDigits
    obtain ⟨ha, hrest⟩ := append_sep_inj (hdot a) (hdot a') hlist
    obtain ⟨hb, hrest⟩ := append_sep_inj (hdot b) (hdot b') hrest
    obtain ⟨hc, hd⟩ := append_sep_inj (hdot c) (hdot c') hrest
    exact ⟨toDigits_inj ha, toDigits_inj hb, toDigits_inj hc, toDigits_inj hd⟩
  · rintro ⟨rfl, rfl, rfl, rfl⟩
    rfl

/-- What 31 bits keep of a word. -/
theorem octet_valInt (a : Word) (shift : ℕ) :
    octet (ocamlInt (valInt a)) shift = a.toNat % 2 ^ 31 / 2 ^ shift % 2 ^ 8 := by
  have hbits : (BitVec.ofInt 31 (ocamlInt (valInt a))).toNat = a.toNat % 2 ^ 31 := by
    have ha := a.isLt
    rw [BitVec.toNat_ofInt, ocamlInt, BitVec.toInt_eq_toNat_cond, toNat_valInt]
    split <;> omega
  have hmask : (0xff#31).toNat = 2 ^ 8 - 1 := rfl
  rw [octet, BitVec.toNat_and, BitVec.toNat_ushiftRight, hbits, hmask, Nat.and_two_pow_sub_one_eq_mod,
    Nat.shiftRight_eq_div_pow]

/-- What `ip_to_string` makes of the OCaml integer for an address. -/
def addressText (a : Word) : String := ipToString (ocamlInt (valInt a))

theorem addressText_eq (a : Word) : addressText a =
    dotted (a.toNat % 2 ^ 8) (a.toNat / 2 ^ 8 % 2 ^ 8) (a.toNat / 2 ^ 16 % 2 ^ 8)
      (a.toNat / 2 ^ 24 % 2 ^ 7) := by
  have h : addressText a = dotted (octet (ocamlInt (valInt a)) 0) (octet (ocamlInt (valInt a)) 8)
      (octet (ocamlInt (valInt a)) 16) (octet (ocamlInt (valInt a)) 24) := rfl
  rw [h, dotted_inj]
  simp only [octet_valInt]
  omega

/-- The word in which lwIP holds `a.b.c.d`, in network order on a little-endian machine. -/
def networkWord (a b c d : UInt8) : Word :=
  BitVec.ofNat 32 (a.toNat + 2 ^ 8 * b.toNat + 2 ^ 16 * c.toNat + 2 ^ 24 * d.toNat)

theorem addressText_networkWord (a b c d : UInt8) : addressText (networkWord a b c d) =
    dotted a.toNat b.toNat c.toNat (d.toNat % 128) := by
  have ha := a.toNat_lt
  have hb := b.toNat_lt
  have hc := c.toNat_lt
  have hd := d.toNat_lt
  rw [addressText_eq, dotted_inj, networkWord, BitVec.toNat_ofNat]
  omega

/-- Bit 31 is not in the text, and everything else is. -/
theorem addressText_inj {v w : Word} :
    addressText v = addressText w ↔ v.setWidth 31 = w.setWidth 31 := by
  rw [addressText_eq, addressText_eq, dotted_inj, ← BitVec.toNat_inj, BitVec.toNat_setWidth,
    BitVec.toNat_setWidth]
  have hv := v.isLt
  have hw := w.isLt
  omega

/-- In its next turn lwIP answers `e` with the address `a`. -/
def Holds (a : Word) (w : Network) (e : NetEff) : Prop :=
  (e = .wifiGetIp ∧ w.turn.ip = a) ∨ ∃ host, e = .dnsResolve host ∧ dnsResolve w.turn.dns = some a

/-- `s` is what a program gets for the address `a` from `Net.Wifi.get_ip` or `Net.Dns.resolve`,
under either handler of `Pio` or under `Net.run`, or from `Netif` itself. -/
inductive Shown (a : Word) (s : String) : Prop
  | fiber {h k ws w e} : Holds a w e →
      (handleNetEffect network h k ws w e).reply = some (.value (.string s)) → Shown a s
  | main {h k ws w e} : Holds a w e →
      (mainNetEffect network h k ws w e).reply = some (.value (.string s)) → Shown a s
  | run {w e} : Holds a w e → (effc network w e).1 = .value (.string s) → Shown a s
  | netif {w} : Holds a w .wifiGetIp → ipToString (network.wifiGetIpRaw w).1 = s → Shown a s

theorem dnsResolveRaw_holds {a : Word} {w : Network} (host : String)
    (h : dnsResolve w.turn.dns = some a) :
    (network.dnsResolveRaw host w).1 = ocamlInt (valInt a) := by
  simp only [network, Network.answer, ocamlDnsResolve, h]

/-- `Net.run` answers both effects as the handlers of `Pio` do. -/
theorem effc_holds {a : Word} {w : Network} {e : NetEff} (he : Holds a w e) (h : Handler) (k : ℕ)
    (ws : List IoWaiter) :
    some (effc network w e).1 = (handleNetEffect network h k ws w e).reply := by
  rcases he with ⟨rfl, _⟩ | ⟨host, rfl, _⟩
  · rfl
  · simp only [effc, handleNetEffect]
    split <;> rfl

theorem handleNetEffect_holds {a : Word} {w : Network} {e : NetEff} {h : Handler} {k : ℕ}
    {ws : List IoWaiter} {s : String} (he : Holds a w e)
    (hs : (handleNetEffect network h k ws w e).reply = some (.value (.string s))) :
    s = addressText a := by
  rcases he with ⟨rfl, rfl⟩ | ⟨host, rfl, hdns⟩
  · simpa [handleNetEffect, network, Network.answer, addressText, eq_comm] using hs
  · simp only [handleNetEffect, dnsResolveRaw_holds host hdns] at hs
    split at hs
    · simp at hs
    · simpa [addressText, eq_comm] using hs

/-- Whatever way the text is asked for, it is that of `ip_to_string`. -/
theorem shown_eq {a : Word} {s : String} (h : Shown a s) : s = addressText a := by
  cases h with
  | fiber he hs => exact handleNetEffect_holds he hs
  | main he hs =>
    rw [mainNetEffect_eq] at hs
    exact handleNetEffect_holds he hs
  | run he hs =>
    have hrun := effc_holds he (.main 0) 0 []
    rw [hs] at hrun
    exact handleNetEffect_holds he hrun.symm
  | netif he hs =>
    rcases he with ⟨_, rfl⟩ | ⟨host, hne, _⟩
    · exact hs.symm
    · simp at hne

theorem shown_addressText (a : Word) : Shown a (addressText a) :=
  .netif (w := ⟨.initial, fun _ => ⟨[], true, true, true, errOk, a, .failed, none⟩, 0⟩)
    (Or.inl ⟨rfl, rfl⟩) rfl

/-- The text is the address exactly when the last octet is below 128, and two addresses have a text
in common exactly when they are the same up to bit 31. -/
theorem shown_iff (a b c d : UInt8) (v w : Word) :
    ((∀ s, Shown (networkWord a b c d) s → s = dotted a.toNat b.toNat c.toNat d.toNat) ↔ d < 128) ∧
    ((∃ s, Shown v s ∧ Shown w s) ↔ v.setWidth 31 = w.setWidth 31) := by
  constructor
  · have htext := addressText_networkWord a b c d
    have hd := d.toNat_lt
    have hlt : d < 128 ↔ d.toNat < 128 := UInt8.lt_iff_toNat_lt
    constructor
    · intro h
      have hself := h _ (shown_addressText _)
      rw [htext, dotted_inj] at hself
      rw [hlt]
      omega
    · intro h s hs
      rw [shown_eq hs, htext, dotted_inj]
      rw [hlt] at h
      omega
  · rw [← addressText_inj]
    constructor
    · rintro ⟨s, hv, hw⟩
      rw [← shown_eq hv, shown_eq hw]
    · intro h
      exact ⟨_, shown_addressText v, h ▸ shown_addressText w⟩

/-- 192.168.1.200 is shown as 192.168.1.72, as is another address. -/
theorem shown_wrong : Shown (networkWord 192 168 1 200) "192.168.1.72" ∧
    Shown (networkWord 192 168 1 72) "192.168.1.72" ∧ dotted 192 168 1 200 ≠ "192.168.1.72" := by
  have h200 := shown_addressText (networkWord 192 168 1 200)
  have h72 := shown_addressText (networkWord 192 168 1 72)
  rw [addressText_networkWord] at h200 h72
  refine ⟨h200, h72, ?_⟩
  decide

end PicoOcaml.Net
