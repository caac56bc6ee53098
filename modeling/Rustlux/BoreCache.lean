import Rustlux.Bore

/-!
# The burst cache word

C keeps the timestamp of `struct bore_bc` in the low 48 bits and the penalty
in the high 16; `BoreBc` takes them from the other ends. A word that C stores
is read back in Rust as what was stored exactly when the three 16-bit limbs of
the time above the lowest one all equal the penalty (`cache_decodes_iff`).

Within the crate the word is a faithful one: `pack` and the accessors are
inverse up to the low 16 bits of the time, so an entry lives no longer than its
lifetime and dies less than 2^16 ns early (`burst_cache_lifetime`).
-/

namespace Rustlux

namespace BoreC

/-- The union of `timestamp : 48, penalty : 16` with `value`. -/
structure BoreBc where
  value : U64
deriving DecidableEq, Repr

namespace BoreBc

/-- Bit-fields are allocated from the least significant bit. -/
def timestamp (bc : BoreBc) : U64 := (bc.value.setWidth 48).setWidth 64

def penalty (bc : BoreBc) : U16 := (bc.value >>> 48).setWidth 16

/-- An initializer of the two fields, each cut to its width. -/
def ofFields (timestamp : U64) (penalty : U16) : BoreBc :=
  ⟨penalty.setWidth 64 <<< 48 ||| (timestamp.setWidth 48).setWidth 64⟩

end BoreBc

def burstCacheExpired (bc : BoreBc) (now : U64) (lifetime : U32) : Bool :=
  let timestamp := bc.timestamp <<< BORE_BC_TIMESTAMP_SHIFT
  now - timestamp > lifetime.setWidth 64

/-- What `update_burst_cache` stores for an average of `penalty`. -/
def storedCache (now : U64) (penalty : U16) : BoreBc :=
  .ofFields (now >>> BORE_BC_TIMESTAMP_SHIFT) penalty

/-! ## The fields as numbers -/

theorem toNat_stored (now : U64) (penalty : U16) :
    (storedCache now penalty).value.toNat = penalty.toNat * 2 ^ 48 + now.toNat / 2 ^ 16 := by
  have hnow := now.isLt
  have hpenalty := penalty.isLt
  have hlow : ((now >>> BORE_BC_TIMESTAMP_SHIFT).setWidth 48 |>.setWidth 64).toNat
      = now.toNat / 2 ^ 16 := by
    rw [BitVec.toNat_setWidth_of_le (by decide), BitVec.toNat_setWidth, BitVec.toNat_ushiftRight,
      Nat.shiftRight_eq_div_pow, BORE_BC_TIMESTAMP_SHIFT]
    omega
  have hlt : now.toNat / 2 ^ 16 < 2 ^ 48 := by omega
  rw [storedCache, BoreBc.ofFields, BitVec.toNat_or, hlow, BitVec.toNat_shiftLeft,
    BitVec.toNat_setWidth_of_le (by decide), Nat.shiftLeft_eq, Nat.mod_eq_of_lt (by omega),
    ← Nat.shiftLeft_eq, ← Nat.shiftLeft_add_eq_or_of_lt hlt]

/-- C reads its own fields back. -/
theorem stored_fields (now : U64) (penalty : U16) :
    (storedCache now penalty).timestamp = now >>> BORE_BC_TIMESTAMP_SHIFT
      ∧ (storedCache now penalty).penalty = penalty := by
  have hnow := now.isLt
  have hpenalty := penalty.isLt
  constructor
  · refine BitVec.eq_of_toNat_eq ?_
    rw [BoreBc.timestamp, BitVec.toNat_setWidth_of_le (by decide), BitVec.toNat_setWidth,
      toNat_stored, BitVec.toNat_ushiftRight, Nat.shiftRight_eq_div_pow, BORE_BC_TIMESTAMP_SHIFT]
    omega
  · refine BitVec.eq_of_toNat_eq ?_
    rw [BoreBc.penalty, BitVec.toNat_setWidth, BitVec.toNat_ushiftRight, toNat_stored,
      Nat.shiftRight_eq_div_pow]
    omega

end BoreC

/-- The low bits of a time that a timestamp does not keep. -/
theorem toNat_clear_low (x : U64) :
    ((x >>> BORE_BC_TIMESTAMP_SHIFT) <<< BORE_BC_TIMESTAMP_SHIFT).toNat
      = x.toNat / 2 ^ 16 * 2 ^ 16 := by
  have hx := x.isLt
  rw [BitVec.toNat_shiftLeft, BitVec.toNat_ushiftRight, Nat.shiftLeft_eq,
    Nat.shiftRight_eq_div_pow, BORE_BC_TIMESTAMP_SHIFT, Nat.mod_eq_of_lt (by omega)]

/-! ## What the crate packs -/

namespace BoreBc

theorem toNat_pack (timestampNs : U64) (penalty : U16) :
    (pack timestampNs penalty).value.toNat
      = timestampNs.toNat / 2 ^ 16 * 2 ^ 16 + penalty.toNat := by
  have hpenalty : (penalty.setWidth 64).toNat = penalty.toNat :=
    BitVec.toNat_setWidth_of_le (by decide)
  rw [pack, BitVec.toNat_or, toNat_clear_low, hpenalty, ← Nat.shiftLeft_eq,
    ← Nat.shiftLeft_add_eq_or_of_lt penalty.isLt]

theorem toNat_penalty (bc : BoreBc) : bc.penalty.toNat = bc.value.toNat % 2 ^ 16 :=
  BitVec.toNat_setWidth ..

theorem toNat_timestamp (bc : BoreBc) : bc.timestamp.toNat = bc.value.toNat / 2 ^ 16 * 2 ^ 16 :=
  toNat_clear_low _

theorem pack_penalty (timestampNs : U64) (penalty : U16) :
    (pack timestampNs penalty).penalty = penalty := by
  have hpenalty := penalty.isLt
  refine BitVec.eq_of_toNat_eq ?_
  rw [toNat_penalty, toNat_pack]
  omega

/-- The timestamp is the time, rounded down to a quantum. -/
theorem toNat_pack_timestamp (timestampNs : U64) (penalty : U16) :
    (pack timestampNs penalty).timestamp.toNat = timestampNs.toNat / 2 ^ 16 * 2 ^ 16 := by
  have hpenalty := penalty.isLt
  rw [toNat_timestamp, toNat_pack]
  omega

theorem pack_timestamp_penalty (bc : BoreBc) : pack bc.timestamp bc.penalty = bc := by
  have hvalue : (pack bc.timestamp bc.penalty).value = bc.value := by
    refine BitVec.eq_of_toNat_eq ?_
    rw [toNat_pack, toNat_penalty, toNat_timestamp]
    omega
  cases bc
  exact congrArg mk hvalue

/-- A timestamp not in the future: the wrapping difference is the age. -/
theorem isExpired_iff {bc : BoreBc} {nowNs : U64} (h : bc.timestamp ≤ nowNs)
    (lifetimeNs : U64) :
    bc.isExpired nowNs lifetimeNs = true
      ↔ lifetimeNs.toNat < nowNs.toNat - bc.timestamp.toNat := by
  rw [isExpired, decide_eq_true_iff, gt_iff_lt, BitVec.lt_def, BitVec.toNat_sub_of_le h]

end BoreBc

open BoreBc (pack) in
/-- **The cache never serves an entry past its lifetime**, and expires it less
than one quantum of the timestamp early. -/
theorem burst_cache_lifetime :
    (∀ (timestampNs : U64) (penalty : U16),
        (pack timestampNs penalty).penalty = penalty
          ∧ (pack timestampNs penalty).timestamp.toNat = timestampNs.toNat / 2 ^ 16 * 2 ^ 16)
      ∧ (∀ bc : BoreBc, pack bc.timestamp bc.penalty = bc)
      ∧ ∀ (timestampNs nowNs : U64) (penalty : U16) (lifetimeNs : U64), timestampNs ≤ nowNs →
          (lifetimeNs.toNat < nowNs.toNat - timestampNs.toNat →
              (pack timestampNs penalty).isExpired nowNs lifetimeNs = true)
            ∧ (nowNs.toNat - timestampNs.toNat + 65535 ≤ lifetimeNs.toNat →
              (pack timestampNs penalty).isExpired nowNs lifetimeNs = false) := by
  refine ⟨fun t p => ⟨BoreBc.pack_penalty t p, BoreBc.toNat_pack_timestamp t p⟩,
    BoreBc.pack_timestamp_penalty, fun timestampNs nowNs penalty lifetimeNs hle => ?_⟩
  have hround := BoreBc.toNat_pack_timestamp timestampNs penalty
  have hle' : timestampNs.toNat ≤ nowNs.toNat := hle
  have hpast : (pack timestampNs penalty).timestamp ≤ nowNs := by
    rw [BitVec.le_def, hround]
    omega
  refine ⟨fun hold => ?_, fun hyoung => ?_⟩
  · rw [BoreBc.isExpired_iff hpast, hround]
    omega
  · rw [Bool.eq_false_iff, ne_eq, BoreBc.isExpired_iff hpast, hround]
    omega

/-- An entry of 65535 ns, which is kept as one of 0 ns. -/
theorem burst_cache_lifetime_65535 :
    (BoreBc.pack 65535 7).isExpired 100000 34464 = true
      ∧ (BoreBc.pack 65535 7).isExpired 100000 100000 = false :=
  ⟨(burst_cache_lifetime.2.2 65535 100000 7 34464 (by decide)).1 (by decide),
    (burst_cache_lifetime.2.2 65535 100000 7 100000 (by decide)).2 (by decide)⟩

/-! ## One word, two readings -/

open BoreC (storedCache burstCacheExpired)

/-- A word of C as `ffi_to_ctx` copies it. -/
def BoreBc.ofC (bc : BoreC.BoreBc) : BoreBc := ⟨bc.value⟩

/-- What C stores is what Rust reads. -/
structure CacheDecodes (now : U64) (p : U16) : Prop where
  timestamp : (BoreBc.ofC (storedCache now p)).timestamp
    = (now >>> BORE_BC_TIMESTAMP_SHIFT) <<< BORE_BC_TIMESTAMP_SHIFT
  penalty : (BoreBc.ofC (storedCache now p)).penalty = p
  expired : ∀ (later : U64) (lifetime : U32), now ≤ later →
    (BoreBc.ofC (storedCache now p)).isExpired later (lifetime.setWidth 64)
      = burstCacheExpired (storedCache now p) later lifetime

theorem isExpired_eq {now : U64} {penalty : U16} {later : U64} {lifetime : U32}
    (h : (BoreBc.ofC (storedCache now penalty)).timestamp
      = (now >>> BORE_BC_TIMESTAMP_SHIFT) <<< BORE_BC_TIMESTAMP_SHIFT) :
    (BoreBc.ofC (storedCache now penalty)).isExpired later (lifetime.setWidth 64)
      = burstCacheExpired (storedCache now penalty) later lifetime := by
  rw [BoreBc.isExpired, burstCacheExpired, h, (BoreC.stored_fields now penalty).1]

/-- Limb `i` of a time, 16 bits each. -/
def limb (now : U64) (i : Nat) : U16 := (now >>> (16 * i)).setWidth 16

theorem toNat_limb (now : U64) (i : Nat) :
    (limb now i).toNat = now.toNat / 2 ^ (16 * i) % 2 ^ 16 := by
  rw [limb, BitVec.toNat_setWidth, BitVec.toNat_ushiftRight, Nat.shiftRight_eq_div_pow]

/-- The timestamp is three limbs. -/
theorem timestamp_eq_limbs (now : U64) :
    now.toNat / 2 ^ 16
      = (limb now 1).toNat + (limb now 2).toNat * 2 ^ 16 + (limb now 3).toNat * 2 ^ 32 := by
  have hnow := now.isLt
  rw [toNat_limb, toNat_limb, toNat_limb]
  omega

/-- What C stores, in limbs: the three of the timestamp, then the penalty. -/
def wordOfLimbs (l1 l2 l3 p : Nat) : Nat := p * 2 ^ 48 + (l1 + l2 * 2 ^ 16 + l3 * 2 ^ 32)

theorem wordOfLimbs_mod {l1 : Nat} (h1 : l1 < 2 ^ 16) (l2 l3 p : Nat) :
    wordOfLimbs l1 l2 l3 p % 2 ^ 16 = l1 := by
  unfold wordOfLimbs
  omega

theorem wordOfLimbs_div {l1 : Nat} (h1 : l1 < 2 ^ 16) (l2 l3 p : Nat) :
    wordOfLimbs l1 l2 l3 p / 2 ^ 16 = l2 + l3 * 2 ^ 16 + p * 2 ^ 32 := by
  unfold wordOfLimbs
  omega

/-- Read from the other ends, the limbs are the same only if they are all
equal. -/
theorem wordOfLimbs_readings {l1 l2 l3 p : Nat} (h1 : l1 < 2 ^ 16) (h2 : l2 < 2 ^ 16)
    (h3 : l3 < 2 ^ 16) (hp : p < 2 ^ 16) :
    (wordOfLimbs l1 l2 l3 p / 2 ^ 16 = l1 + l2 * 2 ^ 16 + l3 * 2 ^ 32
        ∧ wordOfLimbs l1 l2 l3 p % 2 ^ 16 = p)
      ↔ l1 = p ∧ l2 = p ∧ l3 = p := by
  rw [wordOfLimbs_mod h1, wordOfLimbs_div h1]
  constructor
  · rintro ⟨hts, rfl⟩
    have heq2 : l2 = l1 := by omega
    exact ⟨rfl, heq2, by omega⟩
  · rintro ⟨rfl, rfl, rfl⟩
    exact ⟨rfl, rfl⟩

theorem toNat_stored_limbs (now : U64) (penalty : U16) :
    (storedCache now penalty).value.toNat
      = wordOfLimbs (limb now 1).toNat (limb now 2).toNat (limb now 3).toNat penalty.toNat := by
  rw [BoreC.toNat_stored, timestamp_eq_limbs, wordOfLimbs]

/-- **The two encodings meet only where every limb of the timestamp is the
penalty.** -/
theorem cache_decodes_iff (now : U64) (penalty : U16) :
    CacheDecodes now penalty
      ↔ limb now 1 = penalty ∧ limb now 2 = penalty ∧ limb now 3 = penalty := by
  have htimestamp : (BoreBc.ofC (storedCache now penalty)).timestamp
        = (now >>> BORE_BC_TIMESTAMP_SHIFT) <<< BORE_BC_TIMESTAMP_SHIFT
      ↔ (storedCache now penalty).value.toNat / 2 ^ 16 = now.toNat / 2 ^ 16 := by
    have hread : (BoreBc.ofC (storedCache now penalty)).timestamp.toNat
        = (storedCache now penalty).value.toNat / 2 ^ 16 * 2 ^ 16 := toNat_clear_low _
    rw [← BitVec.toNat_inj, hread, toNat_clear_low, Nat.mul_right_cancel_iff (by decide)]
  have hpenalty : (BoreBc.ofC (storedCache now penalty)).penalty = penalty
      ↔ (storedCache now penalty).value.toNat % 2 ^ 16 = penalty.toNat := by
    have hread : (BoreBc.ofC (storedCache now penalty)).penalty.toNat
        = (storedCache now penalty).value.toNat % 2 ^ 16 := BitVec.toNat_setWidth ..
    rw [← BitVec.toNat_inj, hread]
  have hreadings := wordOfLimbs_readings (limb now 1).isLt (limb now 2).isLt (limb now 3).isLt
    penalty.isLt
  rw [← toNat_stored_limbs, ← timestamp_eq_limbs, ← htimestamp, ← hpenalty] at hreadings
  simp only [BitVec.toNat_inj] at hreadings
  refine Iff.trans ?_ hreadings
  constructor
  · exact fun h => ⟨h.timestamp, h.penalty⟩
  · exact fun h => ⟨h.1, h.2, fun _ _ _ => isExpired_eq h.1⟩

/-- After a second of uptime. -/
theorem cache_misread : ¬∀ (now : U64) (penalty : U16), CacheDecodes now penalty :=
  fun h => absurd (h 1000000000 2633).penalty (by decide)

end Rustlux
