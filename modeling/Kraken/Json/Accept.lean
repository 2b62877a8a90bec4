import Kraken.Json.Layout

/-!
# What the scanner accepts

Every value `parse` returns is well-formed: its numbers are JSON number literals, and it
nests at most `maxNestingDepth` containers deep (`parse_fits`).

The invariant `Inv` says what each part of a scanner state holds. A number literal read
so far begins a `NumberLit` of the shape its `NumState` names (`NumInv`); each open
container holds well-formed values that leave room for the containers around it
(`FrameInv`, with the depth still allowed at its height); a completed top-level value is
well-formed and within the limit. One step keeps it (`Inv.step`), so a run does (`scan_inv`).
-/

namespace Kraken.Json

/-! ## Number literals -/

theorem toNat_charOfNat {n : Nat} (h : n < 0xD800) : (Char.ofNat n).toNat = n := by
  have hv : n.isValidChar := Or.inl h
  simp only [Char.ofNat, hv, dif_pos, Char.ofNatAux, Char.toNat, UInt32.toNat,
    BitVec.toNat_ofNatLt]

theorem isDigit_byte_iff {c : UInt8} : isDigit c = true ↔ 48 ≤ c.toNat ∧ c.toNat ≤ 57 := by
  simp only [isDigit, Bool.and_eq_true, decide_eq_true_eq, byte_le_iff]
  rfl

/-- The character a digit byte stands for has the byte's code. -/
theorem toNat_charOfDigit {c : UInt8} (h : isDigit c = true) :
    (Char.ofNat c.toNat).toNat = c.toNat :=
  toNat_charOfNat (by have := isDigit_byte_iff.mp h; omega)

/-- The character of a byte the scanner reads as a digit. -/
theorem isDigit_charOfByte {c : UInt8} (h : isDigit c = true) :
    (Char.ofNat c.toNat).isDigit := by
  rw [isDigit_iff, toNat_charOfDigit h]
  exact isDigit_byte_iff.mp h

/-- The byte `c` is a digit other than `0`, so the literal it starts is not `0`. -/
theorem charOfByte_ne_zero {c : UInt8} (hd : isDigit c = true) (h0 : c ≠ 0x30) :
    Char.ofNat c.toNat ≠ '0' := fun h =>
  h0 (byte_eq_iff.mpr ((toNat_charOfDigit hd).symm.trans (congrArg Char.toNat h)))

theorem forall_isDigit_append {xs : List Char} (h : ∀ c ∈ xs, c.isDigit) {d : Char}
    (hd : d.isDigit) : ∀ c ∈ xs ++ [d], c.isDigit :=
  List.forall_mem_append.mpr ⟨h, List.forall_mem_singleton.mpr hd⟩

namespace NumberLit

/-- The literal of one digit, after an optional minus. -/
theorem exists_ofDigit (neg : Bool) {d : Char} (hd : d.isDigit) :
    ∃ n : NumberLit, n.text = (if neg then ['-'] else []) ++ [d] ∧ n.int = [d] ∧
      n.frac = [] ∧ n.exp = none := by
  have hd' := isDigit_iff.mp hd
  have hint : [d] = ['0'] ∨
      ∃ d' ds, [d] = d' :: ds ∧ '1' ≤ d' ∧ d' ≤ '9' ∧ ∀ c ∈ ds, c.isDigit := by
    by_cases h0 : d.toNat = 48
    · exact .inl (by rw [← Char.ofNat_toNat d, h0])
    · exact .inr ⟨d, [], rfl, show 49 ≤ d.toNat by omega, show d.toNat ≤ 57 from hd'.2,
        nofun⟩
  exact ⟨⟨neg, [d], [], none, hint, nofun, nofun⟩,
    by simp [text, signText, fracText, expText], rfl, rfl, rfl⟩

/-- One more integer digit, after a first digit that is not `0`. -/
theorem exists_appendInt {n : NumberLit} (hi : n.int ≠ ['0']) (hf : n.frac = [])
    (he : n.exp = none) {d : Char} (hd : d.isDigit) :
    ∃ n' : NumberLit, n'.text = n.text ++ [d] ∧ n'.int ≠ ['0'] ∧ n'.frac = [] ∧
      n'.exp = none := by
  obtain ⟨neg, int, frac, exp, int_ok, frac_ok, exp_ok⟩ := n
  obtain rfl : frac = [] := hf
  obtain rfl : exp = none := he
  obtain ⟨d₀, ds, rfl, h1, h9, hds⟩ := int_ok.resolve_left hi
  exact ⟨⟨neg, d₀ :: (ds ++ [d]), [], none,
    .inr ⟨d₀, ds ++ [d], rfl, h1, h9, forall_isDigit_append hds hd⟩, frac_ok, exp_ok⟩,
    by simp [text, signText, fracText, expText], by simp, rfl, rfl⟩

/-- The first fraction digit, after the decimal point. -/
theorem exists_startFrac {n : NumberLit} (hf : n.frac = []) (he : n.exp = none) {d : Char}
    (hd : d.isDigit) :
    ∃ n' : NumberLit, n'.text = n.text ++ ['.', d] ∧ n'.frac ≠ [] ∧ n'.exp = none := by
  obtain ⟨neg, int, frac, exp, int_ok, frac_ok, exp_ok⟩ := n
  obtain rfl : frac = [] := hf
  obtain rfl : exp = none := he
  exact ⟨⟨neg, int, [d], none, int_ok, List.forall_mem_singleton.mpr hd, exp_ok⟩,
    by simp [text, signText, fracText, expText], List.cons_ne_nil _ _, rfl⟩

/-- One more fraction digit. -/
theorem exists_appendFrac {n : NumberLit} (hf : n.frac ≠ []) (he : n.exp = none) {d : Char}
    (hd : d.isDigit) :
    ∃ n' : NumberLit, n'.text = n.text ++ [d] ∧ n'.frac ≠ [] ∧ n'.exp = none := by
  obtain ⟨neg, int, frac, exp, int_ok, frac_ok, exp_ok⟩ := n
  obtain rfl : exp = none := he
  refine ⟨⟨neg, int, frac ++ [d], none, int_ok, forall_isDigit_append frac_ok hd, exp_ok⟩, ?_,
    by simp, rfl⟩
  simp only at hf
  simp [text, signText, fracText, expText, hf]

/-- The first exponent digit, after the marker and an optional sign. -/
theorem exists_startExp {n : NumberLit} (he : n.exp = none) {e : Char} (hm : e = 'e' ∨ e = 'E')
    (sign : Option Char) (hs : ∀ x ∈ sign, x = '+' ∨ x = '-') {d : Char} (hd : d.isDigit) :
    ∃ n' : NumberLit, n'.text = n.text ++ e :: (sign.toList ++ [d]) ∧ n'.exp.isSome := by
  obtain ⟨neg, int, frac, exp, int_ok, frac_ok, exp_ok⟩ := n
  obtain rfl : exp = none := he
  refine ⟨⟨neg, int, frac, some (e, sign, [d]), int_ok, frac_ok, ?_⟩,
    by simp [text, signText, fracText, expText], rfl⟩
  intro x hx
  cases Option.mem_def.mp hx
  exact ⟨hm, hs, List.cons_ne_nil _ _, List.forall_mem_singleton.mpr hd⟩

/-- One more exponent digit. -/
theorem exists_appendExp {n : NumberLit} (he : n.exp.isSome) {d : Char} (hd : d.isDigit) :
    ∃ n' : NumberLit, n'.text = n.text ++ [d] ∧ n'.exp.isSome := by
  obtain ⟨neg, int, frac, exp, int_ok, frac_ok, exp_ok⟩ := n
  obtain ⟨⟨e, sign, ds⟩, rfl⟩ := Option.isSome_iff_exists.mp he
  obtain ⟨hm, hs, -, hds⟩ := exp_ok _ rfl
  refine ⟨⟨neg, int, frac, some (e, sign, ds ++ [d]), int_ok, frac_ok, ?_⟩,
    by simp [text, signText, fracText, expText], rfl⟩
  intro x hx
  cases Option.mem_def.mp hx
  exact ⟨hm, hs, by simp, forall_isDigit_append hds hd⟩

end NumberLit

/-- The characters of a number literal read so far, in each state of `numStep`: the
`NumberLit` they begin. -/
def NumInv : NumState → List Char → Prop
  | .neg, lit => lit = ['-']
  | .zero, lit => ∃ n : NumberLit, lit = n.text ∧ n.int = ['0'] ∧ n.frac = [] ∧ n.exp = none
  | .int, lit =>
      ∃ n : NumberLit, lit = n.text ∧ n.int ≠ ['0'] ∧ n.frac = [] ∧ n.exp = none
  | .dot, lit => ∃ n : NumberLit, lit = n.text ++ ['.'] ∧ n.frac = [] ∧ n.exp = none
  | .frac, lit => ∃ n : NumberLit, lit = n.text ∧ n.frac ≠ [] ∧ n.exp = none
  | .exp, lit => ∃ (n : NumberLit) (e : Char), lit = n.text ++ [e] ∧ (e = 'e' ∨ e = 'E') ∧
      n.exp = none
  | .expSign, lit => ∃ (n : NumberLit) (e s : Char), lit = n.text ++ [e, s] ∧
      (e = 'e' ∨ e = 'E') ∧ (s = '+' ∨ s = '-') ∧ n.exp = none
  | .expDigits, lit => ∃ n : NumberLit, lit = n.text ∧ n.exp.isSome

theorem numInv_zero_start : NumInv .zero ['0'] :=
  let ⟨n, ht, hint, hf, he⟩ := NumberLit.exists_ofDigit false (d := '0') rfl
  ⟨n, ht.symm, hint, hf, he⟩

theorem numInv_int_start {c : UInt8} (hd : isDigit c = true) (h0 : c ≠ 0x30) :
    NumInv .int [Char.ofNat c.toNat] :=
  let ⟨n, ht, hint, hf, he⟩ := NumberLit.exists_ofDigit false (isDigit_charOfByte hd)
  ⟨n, ht.symm, fun h => charOfByte_ne_zero hd h0 (List.head_eq_of_cons_eq (hint.symm.trans h)),
    hf, he⟩

theorem expMarker_char {c : UInt8} (h : c = 0x65 ∨ c = 0x45) :
    Char.ofNat c.toNat = 'e' ∨ Char.ofNat c.toNat = 'E' := by
  rcases h with rfl | rfl
  exacts [.inl rfl, .inr rfl]

theorem expSign_char {c : UInt8} (h : c = 0x2B ∨ c = 0x2D) :
    Char.ofNat c.toNat = '+' ∨ Char.ofNat c.toNat = '-' := by
  rcases h with rfl | rfl
  exacts [.inl rfl, .inr rfl]

/-- One byte the number automaton takes keeps the literal the shape its new state names. -/
theorem numInv_step {st st' : NumState} {c : UInt8} {lit : List Char}
    (h : numStep st c = .ok (some st')) (hi : NumInv st lit) :
    NumInv st' (lit ++ [Char.ofNat c.toNat]) := by
  cases st with
  | neg =>
      subst hi
      simp only [numStep] at h
      split_ifs at h with h0 hd <;> cases h
      · subst h0
        obtain ⟨n, ht, hint, hf, he⟩ := NumberLit.exists_ofDigit true (d := '0') rfl
        exact ⟨n, ht.symm, hint, hf, he⟩
      · obtain ⟨n, ht, hint, hf, he⟩ := NumberLit.exists_ofDigit true (isDigit_charOfByte hd)
        exact ⟨n, ht.symm, fun h => charOfByte_ne_zero hd h0
          (List.head_eq_of_cons_eq (hint.symm.trans h)), hf, he⟩
  | zero =>
      obtain ⟨n, rfl, -, hf, he⟩ := hi
      simp only [numStep] at h
      split_ifs at h with hdot hexp <;> cases h
      · subst hdot
        exact ⟨n, rfl, hf, he⟩
      · exact ⟨n, _, rfl, expMarker_char hexp, he⟩
  | int =>
      obtain ⟨n, rfl, hint, hf, he⟩ := hi
      simp only [numStep] at h
      split_ifs at h with hd hdot hexp <;> cases h
      · obtain ⟨n', ht, hint', hf', he'⟩ := NumberLit.exists_appendInt hint hf he
          (isDigit_charOfByte hd)
        exact ⟨n', ht.symm, hint', hf', he'⟩
      · subst hdot
        exact ⟨n, rfl, hf, he⟩
      · exact ⟨n, _, rfl, expMarker_char hexp, he⟩
  | dot =>
      obtain ⟨n, rfl, hf, he⟩ := hi
      simp only [numStep] at h
      split_ifs at h with hd
      cases h
      obtain ⟨n', ht, hf', he'⟩ := NumberLit.exists_startFrac hf he (isDigit_charOfByte hd)
      exact ⟨n', by rw [ht, List.append_assoc]; rfl, hf', he'⟩
  | frac =>
      obtain ⟨n, rfl, hf, he⟩ := hi
      simp only [numStep] at h
      split_ifs at h with hd hexp <;> cases h
      · obtain ⟨n', ht, hf', he'⟩ := NumberLit.exists_appendFrac hf he (isDigit_charOfByte hd)
        exact ⟨n', ht.symm, hf', he'⟩
      · exact ⟨n, _, rfl, expMarker_char hexp, he⟩
  | exp =>
      obtain ⟨n, e, rfl, hm, he⟩ := hi
      simp only [numStep] at h
      split_ifs at h with hs hd <;> cases h
      · exact ⟨n, e, _, by rw [List.append_assoc]; rfl, hm, expSign_char hs, he⟩
      · obtain ⟨n', ht, he'⟩ := NumberLit.exists_startExp he hm none nofun
          (isDigit_charOfByte hd)
        exact ⟨n', by rw [ht, List.append_assoc]; rfl, he'⟩
  | expSign =>
      obtain ⟨n, e, sg, rfl, hm, hs, he⟩ := hi
      simp only [numStep] at h
      split_ifs at h with hd
      cases h
      obtain ⟨n', ht, he'⟩ := NumberLit.exists_startExp he hm (some sg)
        (fun x hx => Option.mem_some_iff.mp hx ▸ hs) (isDigit_charOfByte hd)
      exact ⟨n', by rw [ht, List.append_assoc]; rfl, he'⟩
  | expDigits =>
      obtain ⟨n, rfl, he⟩ := hi
      simp only [numStep] at h
      split_ifs at h with hd <;> cases h
      obtain ⟨n', ht, he'⟩ := NumberLit.exists_appendExp he (isDigit_charOfByte hd)
      exact ⟨n', ht.symm, he'⟩

/-- A number literal ends only in a state where what was read is a whole `NumberLit`. -/
theorem exists_numberLit_of_end {st : NumState} {c : UInt8} {lit : List Char}
    (h : numStep st c = .ok none) (hi : NumInv st lit) : ∃ n : NumberLit, lit = n.text := by
  cases st <;> simp only [numStep] at h <;> split_ifs at h <;> cases h
  all_goals
    obtain ⟨n, hn, -⟩ := hi
    exact ⟨n, hn⟩

/-! ## The scanner's states -/

/-- A well-formed value with at most `k` levels of nesting. -/
def Fits (k : Nat) (v : Value) : Prop := v.WellFormed ∧ v.depth ≤ k

theorem Fits.mono {k k' : Nat} {v : Value} (h : Fits k v) (hk : k ≤ k') : Fits k' v :=
  ⟨h.1, h.2.trans hk⟩

theorem fits_array {k : Nat} {es : List Value} (h : ∀ e ∈ es, Fits k e) :
    Fits (k + 1) (.array es.reverse) :=
  ⟨elemsWellFormed_iff.mpr fun e he => (h e (List.mem_reverse.mp he)).1,
    Nat.succ_le_succ (depthElems_le_iff.mpr fun e he => (h e (List.mem_reverse.mp he)).2)⟩

theorem fits_object {k : Nat} {ms : List (String × Value)} (h : ∀ m ∈ ms, Fits k m.2) :
    Fits (k + 1) (.object ms.reverse) :=
  ⟨membersWellFormed_iff.mpr fun m hm => (h m (List.mem_reverse.mp hm)).1,
    Nat.succ_le_succ (depthMembers_le_iff.mpr fun m hm => (h m (List.mem_reverse.mp hm)).2)⟩

/-- What an open container holds, when the values in it may still be `k` deep. -/
def FrameInv (k : Nat) : Frame → Prop
  | .array es => ∀ e ∈ es, Fits k e
  | .object ms _ => ∀ m ∈ ms, Fits k m.2

/-- Every open container, with the depth left below it by the containers around it. -/
def StackInv : List Frame → Prop
  | [] => True
  | f :: fs => FrameInv (maxNestingDepth - (fs.length + 1)) f ∧ StackInv fs

/-- What a phase holds: the number literal read so far (kept newest first), or the value of
the keyword being read. -/
def PhaseInv : Phase → Prop
  | .num st lit => NumInv st lit.reverse
  | .word _ _ v => Fits 0 v
  | _ => True

namespace Scanner

/-- The invariant of every state a run reaches. -/
structure Inv (s : Scanner) : Prop where
  depth : s.stack.length ≤ maxNestingDepth
  stack : StackInv s.stack
  top : ∀ v ∈ s.top, Fits maxNestingDepth v
  phase : PhaseInv s.phase

/-- A transition keeps the invariant: every state it returns satisfies it. -/
def Keeps : Except SyntaxError Scanner → Prop
  | .ok s => Inv s
  | .error _ => True

theorem Keeps.ite {p : Prop} [Decidable p] {a b : Except SyntaxError Scanner} (ha : p → Keeps a)
    (hb : ¬p → Keeps b) : Keeps (if p then a else b) := by
  split
  · exact ha ‹_›
  · exact hb ‹_›

theorem init_inv : Inv init := ⟨Nat.zero_le _, trivial, nofun, trivial⟩

namespace Inv

variable {s : Scanner} (hs : Inv s)
include hs

theorem setPhase {ph : Phase} (hp : PhaseInv ph) : Inv { s with phase := ph } :=
  ⟨hs.depth, hs.stack, hs.top, hp⟩

theorem setOffset (o : Nat) : Inv { s with offset := o } :=
  ⟨hs.depth, hs.stack, hs.top, hs.phase⟩

/-- A completed value that fits below the open containers keeps the invariant. -/
theorem complete {v : Value} (hv : Fits (maxNestingDepth - s.stack.length) v) :
    Inv (s.complete v) := by
  obtain ⟨ph, stack, top, off⟩ := s
  obtain ⟨hdepth, hstack, htop, -⟩ := hs
  rcases stack with _ | ⟨_ | ⟨ms, _ | k⟩, fs⟩
  · exact ⟨hdepth, trivial, fun w hw => by cases hw; exact hv, trivial⟩
  · exact ⟨hdepth, ⟨List.forall_mem_cons.mpr ⟨hv, hstack.1⟩, hstack.2⟩, htop, trivial⟩
  · cases v <;> exact ⟨hdepth, hstack, htop, trivial⟩
  · exact ⟨hdepth, ⟨List.forall_mem_cons.mpr ⟨hv, hstack.1⟩, hstack.2⟩, htop, trivial⟩

theorem push {c : UInt8} {f : Frame} {ph : Phase}
    (hf : FrameInv (maxNestingDepth - (s.stack.length + 1)) f) (hp : PhaseInv ph) :
    Keeps (s.push c f ph) := by
  delta Scanner.push
  split
  · trivial
  · exact ⟨by simp only [List.length_cons]; omega, ⟨hf, hs.stack⟩, hs.top, hp⟩

theorem beginValue (c : UInt8) : Keeps (s.beginValue c) :=
  Keeps.ite (fun _ => hs) fun _ =>
  Keeps.ite (fun _ => hs.push nofun trivial) fun _ =>
  Keeps.ite (fun _ => hs.push nofun trivial) fun _ =>
  Keeps.ite (fun _ => hs.setPhase trivial) fun _ =>
  Keeps.ite (fun _ => hs.setPhase rfl) fun _ =>
  Keeps.ite (fun _ => hs.setPhase numInv_zero_start) fun h0 =>
  Keeps.ite (fun hd => hs.setPhase (numInv_int_start hd h0)) fun _ =>
  Keeps.ite (fun _ => hs.setPhase ⟨trivial, le_rfl⟩) fun _ =>
  Keeps.ite (fun _ => hs.setPhase ⟨trivial, le_rfl⟩) fun _ =>
  Keeps.ite (fun _ => hs.setPhase ⟨trivial, le_rfl⟩) fun _ => trivial

theorem beginKey (c : UInt8) : Keeps (s.beginKey c) :=
  Keeps.ite (fun _ => hs) fun _ => Keeps.ite (fun _ => hs.setPhase trivial) fun _ => trivial

/-- Closing a container pops its frame and completes it, within the depth its frame left. -/
theorem endValue (c : UInt8) : Keeps (s.endValue c) := by
  delta Scanner.endValue
  split
  · split
    · exact hs
    · trivial
  · rename_i f fs hst
    have hlen : fs.length + 1 ≤ maxNestingDepth := by
      have := hs.depth
      rwa [hst] at this
    have hstk : StackInv (f :: fs) := hst ▸ hs.stack
    have hpop : Inv { s with stack := fs } :=
      ⟨show fs.length ≤ maxNestingDepth by omega, hstk.2, hs.top, hs.phase⟩
    have hclose : ∀ {v}, Fits (maxNestingDepth - (fs.length + 1) + 1) v →
        Keeps (.ok (Scanner.complete { s with stack := fs } v)) :=
      fun hv => hpop.complete (hv.mono (show _ ≤ maxNestingDepth - fs.length by omega))
    refine Keeps.ite (fun _ => hs) fun _ => ?_
    split
    · exact Keeps.ite (fun _ => hs.setPhase trivial) fun _ => trivial
    · exact Keeps.ite (fun _ => hs.setPhase trivial) fun _ =>
        Keeps.ite (fun _ => hclose (fits_object hstk.1)) fun _ => trivial
    · exact Keeps.ite (fun _ => hs.setPhase trivial) fun _ =>
        Keeps.ite (fun _ => hclose (fits_array hstk.1)) fun _ => trivial

/-- One step keeps the invariant. -/
theorem step (c : UInt8) : Keeps (s.step c) := by
  delta Scanner.step
  split
  · exact hs.beginValue c
  · split
    · exact hs.endValue c
    · exact hs.beginValue c
  · split
    · exact hs.endValue c
    · exact hs.beginKey c
  · exact hs.beginKey c
  · exact hs.endValue c
  · split
    · exact hs.setPhase trivial
    · exact hs.complete ⟨trivial, Nat.zero_le _⟩
    · trivial
  · rename_i st lit hph
    have hi : PhaseInv (.num st lit) := hph ▸ hs.phase
    split
    · rename_i st' hn
      exact hs.setPhase (show NumInv st' (_ :: lit).reverse by
        rw [List.reverse_cons]
        exact numInv_step hn hi)
    · rename_i hn
      obtain ⟨n, hlit⟩ := exists_numberLit_of_end hn hi
      exact (hs.complete (v := .number (String.mk lit.reverse))
        ⟨⟨n, hlit⟩, Nat.zero_le _⟩).endValue c
    · trivial
  · rename_i name rest v hph
    have hv : PhaseInv (.word name rest v) := hph ▸ hs.phase
    have hc : Inv (s.complete v) := hs.complete (Fits.mono hv (Nat.zero_le _))
    split
    · split
      · split
        · exact hc
        · exact hs.setPhase hv
      · trivial
    · exact hc

end Inv

/-- A run keeps the invariant. -/
theorem scan_inv {cs : List UInt8} :
    ∀ {s s' : Scanner}, Inv s → scan s cs = .ok s' → Inv s' := by
  induction cs with
  | nil =>
      intro s s' hs h
      cases h
      exact hs
  | cons c cs ih =>
      intro s s' hs h
      obtain ⟨s₁, h₁, h₂⟩ := Except.bind_eq_ok.mp h
      have hstep := (hs.setOffset (s.offset + 1)).step c
      rw [h₁] at hstep
      exact ih hstep h₂

end Scanner

/-- Every value `parse` returns is well-formed and nests at most `maxNestingDepth` deep. -/
theorem parse_fits {data : List UInt8} {v : Value} (h : parse data = .ok v) :
    Fits maxNestingDepth v := by
  obtain ⟨s, hs, h⟩ := Except.bind_eq_ok.mp h
  obtain ⟨s', hs', h⟩ := Except.bind_eq_ok.mp h
  have hinv := (Scanner.scan_inv Scanner.init_inv hs).step 0x20
  rw [hs'] at hinv
  split at h
  · rename_i w _ htop _
    cases h
    exact hinv.top _ htop
  · cases h

end Kraken.Json
