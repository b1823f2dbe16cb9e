import VarahaCache.Vcl.Execution

/-!
# Integers of VCL

An integer is a machine word of 64 bits, and it is cut where it is stored as
less. A mask, a status, a sum, a difference or a negation is what was written
EXACTLY when it fits; nothing is refused.
-/

namespace VarahaCache.Vcl

/-! ## Words -/

theorem toNat_toUInt64 (i : Int64) : (i.toUInt64.toNat : ℤ) = i.toInt % 2 ^ 64 := by
  have hword : i.toUInt64.toNat = i.toBitVec.toNat := rfl
  have hint : i.toInt = i.toBitVec.toInt := rfl
  have hlt := i.toBitVec.isLt
  rw [hword, hint, BitVec.toInt_eq_toNat_cond]
  split
  all_goals omega

theorem toNat_toUInt8_eq_iff (i : Int64) :
    (i.toUInt64.toUInt8.toNat : ℤ) = i.toInt ↔ 0 ≤ i.toInt ∧ i.toInt < 2 ^ 8 := by
  have hword := toNat_toUInt64 i
  rw [UInt64.toNat_toUInt8]
  omega

theorem toNat_truncU16_eq_iff (i : Int64) :
    ((truncU16 i).toNat : ℤ) = i.toInt ↔ 0 ≤ i.toInt ∧ i.toInt < 2 ^ 16 := by
  have hword := toNat_toUInt64 i
  rw [truncU16, UInt64.toNat_toUInt16]
  omega

def Fits (n : ℤ) : Prop := -2 ^ 63 ≤ n ∧ n < 2 ^ 63

theorem bmod_eq_iff (n : ℤ) : n.bmod (2 ^ 64) = n ↔ Fits n := by
  constructor
  · intro h
    have hlower := @Int.le_bmod n (2 ^ 64) (by decide)
    have hupper := @Int.bmod_lt n (2 ^ 64) (by decide)
    rw [h] at hlower hupper
    constructor
    all_goals norm_num at hlower hupper
    all_goals omega
  · rintro ⟨hlower, hupper⟩
    refine Int.bmod_eq_of_le ?_ ?_
    all_goals norm_num
    all_goals omega

/-! ## Kept, or refused -/

/-- A mask is stored as it is written, or the program is refused. -/
def MaskKept (v : Int64) : Prop :=
  ∀ (slash lit : Token) (rest : List Token), slash.kind = .slash → lit.kind = .intLit v →
    match Parser.parseMask (slash :: lit :: rest) with
    | .ok (mask, _) => ∃ bits, mask = some bits ∧ (bits.toNat : ℤ) = v.toInt
    | .error _ => True

theorem maskKept_iff (v : Int64) : MaskKept v ↔ 0 ≤ v.toInt ∧ v.toInt < 2 ^ 8 := by
  have hparse : ∀ (slash lit : Token) (rest : List Token), slash.kind = .slash →
      lit.kind = .intLit v →
      Parser.parseMask (slash :: lit :: rest) = .ok (some v.toUInt64.toUInt8, rest) := by
    rintro ⟨_, pos⟩ ⟨_, pos'⟩ rest rfl rfl
    rfl
  rw [← toNat_toUInt8_eq_iff]
  constructor
  · intro h
    have hkept := h ⟨.slash, ⟨1, 1⟩⟩ ⟨.intLit v, ⟨1, 1⟩⟩ [] rfl rfl
    rw [hparse _ _ _ rfl rfl] at hkept
    obtain ⟨bits, hbits, hexact⟩ := hkept
    cases hbits
    exact hexact
  · intro h slash lit rest hslash hlit
    rw [hparse slash lit rest hslash hlit]
    exact ⟨_, rfl, h⟩

namespace VclInterpreter

variable (interp : VclInterpreter)

theorem evalExpr_intLit (i : Int64) (s : State) :
    interp.evalExpr (.intLit i) s = (.ok (.int i), s) := by
  rw [evalExpr]
  rfl

/-- The status of `synth` is the integer, or there is an error. -/
def SynthKept (i : Int64) : Prop :=
  ∀ (e : Expr) (args : List Expr) (s s' : State), interp.evalExpr e s = (.ok (.int i), s') →
    match interp.handleReturn (.functionCall "synth" (e :: args)) s with
    | (.error _, _) => True
    | (_, after) => ∃ status, after.ctx.synthStatus = some status ∧ (status.toNat : ℤ) = i.toInt

theorem synthKept_iff (i : Int64) : interp.SynthKept i ↔ 0 ≤ i.toInt ∧ i.toInt < 2 ^ 16 := by
  have hreturn : ∀ (e : Expr) (args : List Expr) (s s' : State),
      interp.evalExpr e s = (.ok (.int i), s') →
      ∃ after, interp.handleReturn (.functionCall "synth" (e :: args)) s = (.return .synth, after) ∧
        after.ctx.synthStatus = some (truncU16 i) := by
    intro e args s s' heval
    refine ⟨_, rfl, ?_⟩
    -- the second argument is evaluated later, and changes the body only
    rw [@observe_storeArg _ interp VclContext.synthStatus]
    · rw [List.getElem?_cons_zero, storeArg, heval]
      rfl
    · exact fun _ _ => rfl
  rw [← toNat_truncU16_eq_iff]
  constructor
  · intro h
    have heval := interp.evalExpr_intLit i blank
    have hkept := h (.intLit i) [] blank blank heval
    obtain ⟨after, hafter, hstatus⟩ := hreturn _ [] _ _ heval
    rw [hafter] at hkept
    obtain ⟨status, hsome, hexact⟩ := hkept
    rw [hstatus] at hsome
    cases hsome
    exact hexact
  · intro h e args s s' heval
    obtain ⟨after, hafter, hstatus⟩ := hreturn e args s s' heval
    rw [hafter]
    exact ⟨_, hstatus, h⟩

/-- The status of a message is set to the integer, or there is an error. -/
def StatusKept (m : Message) (i : Int64) : Prop :=
  ∀ (e : Expr) (s s' : State), interp.evalExpr e s = (.ok (.int i), s') →
    match interp.execStatement (.set (m.name ++ ".status") .assign e) s with
    | .ret (.error _, _) => True
    | .ret (_, after) => ((m.get after.ctx).status.code.toNat : ℤ) = i.toInt
    | .call _ _ _ => False

theorem statusKept_iff {m : Message} (hm : m = .resp ∨ m = .beresp) (i : Int64) :
    interp.StatusKept m i ↔ 0 ≤ i.toInt ∧ i.toInt < 2 ^ 16 := by
  have hset : ∀ (e : Expr) (s s' : State), interp.evalExpr e s = (.ok (.int i), s') →
      ∃ after, interp.execStatement (.set (m.name ++ ".status") .assign e) s =
        .ret (.continue, after) ∧ (m.get after.ctx).status.code = truncU16 i := by
    intro e s s' heval
    rw [execStatement, withValue, heval]
    refine ⟨_, rfl, ?_⟩
    rcases hm with rfl | rfl
    all_goals rfl
  rw [← toNat_truncU16_eq_iff]
  constructor
  · intro h
    have heval := interp.evalExpr_intLit i blank
    have hkept := h (.intLit i) blank blank heval
    obtain ⟨after, hafter, hstatus⟩ := hset _ _ _ heval
    rw [hafter] at hkept
    rw [← hstatus]
    exact hkept
  · intro h e s s' heval
    obtain ⟨after, hafter, hstatus⟩ := hset e s s' heval
    rw [hafter]
    dsimp only
    rw [hstatus]
    exact h

/-- An operator gives the number, or an error. -/
def Exact (n : ℤ) : Except String VclValue → Prop
  | .ok (.int c) => c.toInt = n
  | .ok _ => False
  | .error _ => True

/-- **Integers are kept** EXACTLY when they fit: a mask into 8 bits, a status
into 16, and the result of an operator into 64. -/
theorem integers_kept_iff :
    (∀ v, MaskKept v ↔ 0 ≤ v.toInt ∧ v.toInt < 2 ^ 8) ∧
    (∀ i, interp.SynthKept i ↔ 0 ≤ i.toInt ∧ i.toInt < 2 ^ 16) ∧
    (∀ i, interp.StatusKept .resp i ↔ 0 ≤ i.toInt ∧ i.toInt < 2 ^ 16) ∧
    (∀ i, interp.StatusKept .beresp i ↔ 0 ≤ i.toInt ∧ i.toInt < 2 ^ 16) ∧
    (∀ a b, Exact (a.toInt + b.toInt) (interp.evalBinaryOp (.int a) .add (.int b)) ↔
      Fits (a.toInt + b.toInt)) ∧
    (∀ a b, Exact (a.toInt - b.toInt) (interp.evalBinaryOp (.int a) .sub (.int b)) ↔
      Fits (a.toInt - b.toInt)) ∧
    ∀ a, Exact (-a.toInt) (.ok (evalUnaryOp .negate (.int a))) ↔ Fits (-a.toInt) := by
  refine ⟨maskKept_iff, interp.synthKept_iff, interp.statusKept_iff (.inl rfl),
    interp.statusKept_iff (.inr rfl), fun a b => ?_, fun a b => ?_, fun a => ?_⟩
  · rw [← bmod_eq_iff, ← Int64.toInt_add]
    rfl
  · rw [← bmod_eq_iff, ← Int64.toInt_sub]
    rfl
  · rw [← bmod_eq_iff, ← Int64.toInt_neg]
    rfl

/-- **Integers are changed without a word**: the mask 256 becomes 0, the
status 65736 becomes 200, and the largest integer plus one the smallest. -/
theorem not_integers_kept : (accepted "acl a \x7b \"10.0.0.0\"/256; \x7d").map
        (fun program => program.acls.map (·.entries.map (·.mask))) = some [[some 0]] ∧
    ((accepted "sub a \x7b return (synth(65736)); \x7d").bind fun program =>
      (bare program).execSubroutine 1 "a" blank).map (fun r => (r.1, r.2.ctx.synthStatus)) =
        some (.action .synth, some 200) ∧
    ((accepted "sub a \x7b set resp.status = 65736; set beresp.status = -1; \x7d").bind fun program =>
      (bare program).execSubroutine 1 "a" blank).map
        (fun r => (r.1, r.2.ctx.resp.status.code, r.2.ctx.beresp.status.code)) =
        some (.fallthrough, 200, 65535) ∧
    (bare ⟨none, [], [], [], [], []⟩).evalBinaryOp (.int 9223372036854775807) .add (.int 1) =
      .ok (.int (-9223372036854775808)) := by
  refine ⟨?_, ?_, ?_, rfl⟩
  all_goals decide +kernel

end VclInterpreter

end VarahaCache.Vcl
