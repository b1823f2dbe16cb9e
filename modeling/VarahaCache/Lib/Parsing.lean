import Mathlib

/-!
# Recursive descent

Parsers over a list of tokens that look at the kind of the next one only. One
that would go on without taking a token is `stuck`. Two judgements are about
parsers built with `bind`, `peek`, `advance` and `loop`:

- `Spec`: from fewer than `n` tokens a parser does not get stuck, and what it
  returns is as said, with so many tokens taken at least;
- `Yields`: in front of the right kind of token a parser takes tokens of these
  kinds and returns this.
-/

namespace VarahaCache.Lib

open List

/-- Why a parser returns nothing. -/
inductive Stop (ε : Type)
  | error (e : ε)
  | stuck
deriving DecidableEq

def Parser (τ ε α : Type) := List τ → Except (Stop ε) (α × List τ)

namespace Parser

variable {τ κ ε σ α β : Type}

protected def pure (a : α) : Parser τ ε α := fun ts => .ok (a, ts)

protected def bind (p : Parser τ ε α) (f : α → Parser τ ε β) : Parser τ ε β := fun ts =>
  match p ts with
  | .error stop => .error stop
  | .ok (a, rest) => f a rest

instance : Monad (Parser τ ε) where
  pure := Parser.pure
  bind := Parser.bind

def stuck : Parser τ ε α := fun _ => .error .stuck

theorem bind_apply (p : Parser τ ε α) (f : α → Parser τ ε β) (ts : List τ) :
    (p >>= f) ts =
      match p ts with
      | .error stop => .error stop
      | .ok (a, rest) => f a rest := rfl

theorem bind_assoc {γ : Type} (p : Parser τ ε α) (f : α → Parser τ ε β) (g : β → Parser τ ε γ) :
    p >>= f >>= g = p >>= fun a => f a >>= g := by
  funext ts
  rw [bind_apply, bind_apply, bind_apply]
  cases p ts with
  | error stop => rfl
  | ok read => rfl

variable {body : σ → Parser τ ε (σ ⊕ α)} {p : Parser τ ε α} {f : α → Parser τ ε β}

theorem bind_of_ok {ts rest : List τ} {a : α}
    (h : p ts = .ok (a, rest)) : (p >>= f) ts = f a rest := by
  rw [bind_apply, h]

def next (kind : τ → κ) (eof : κ) (ts : List τ) : κ := (ts.head?.map kind).getD eof

def peek (kind : τ → κ) (eof : κ) : Parser τ ε κ := fun ts => .ok (next kind eof ts, ts)

def advance : Parser τ ε Unit := fun ts => .ok ((), ts.tail)

def loopFrom (body : σ → Parser τ ε (σ ⊕ α)) (s : σ) (ts : List τ) : Except (Stop ε) (α × List τ) :=
  match body s ts with
  | .error stop => .error stop
  | .ok (.inr a, rest) => .ok (a, rest)
  | .ok (.inl s', rest) =>
    if _h : rest.length < ts.length then loopFrom body s' rest else .error .stuck
termination_by ts.length

/-- Rounds of `body` until it has a result. -/
def loop (body : σ → Parser τ ε (σ ⊕ α)) (s : σ) : Parser τ ε α := fun ts => loopFrom body s ts

/-! ## What a parser can return -/

/-- Fewer than `k` tokens, all of which pass. -/
def Short (T : τ → Prop) (k : ℕ) (ts : List τ) : Prop := ts.length < k ∧ ∀ t ∈ ts, T t

variable {T : τ → Prop} {n : ℕ} {Q : α → Prop} {R : β → Prop} {s : σ} {taken : α → ℕ} {m : ℕ}

theorem Short.mono {k l : ℕ} {ts : List τ} (h : Short T k ts) (hkl : k ≤ l) : Short T l ts :=
  ⟨h.1.trans_le hkl, h.2⟩

/-- Given fewer than `n` tokens, `p` does not get stuck. What it returns
passes, and it has taken as many tokens as said at least. -/
def Spec (T : τ → Prop) (n : ℕ) (Q : α → Prop) (taken : α → ℕ) (p : Parser τ ε α) : Prop :=
  ∀ k ≤ n, ∀ ts, Short T k ts →
    match p ts with
    | .ok (a, rest) => Q a ∧ Short T (k - taken a) rest
    | .error stop => stop ≠ .stuck

theorem Spec.zero (Q : α → Prop) (taken : α → ℕ) (p : Parser τ ε α) : Spec T 0 Q taken p := by
  intro k hk ts hts
  have hlength := hts.1
  omega

theorem Spec.mono {Q' : α → Prop} {taken' : α → ℕ} (h : Spec T n Q taken p) (hm : m ≤ n)
    (hQ : ∀ a, Q a → Q' a) (htaken : ∀ a, taken' a ≤ taken a) : Spec T m Q' taken' p := by
  intro k hk ts hts
  have hspec := h k (hk.trans hm) ts hts
  revert hspec
  split
  · rename_i a rest _
    intro hspec
    have hle := htaken a
    exact ⟨hQ a hspec.1, hspec.2.mono (by omega)⟩
  · exact id

theorem Spec.pure {a : α} (hQ : Q a) (htaken : taken a = 0) :
    Spec T n Q taken (Pure.pure a : Parser τ ε α) := by
  intro k _ ts hts
  refine ⟨hQ, ?_⟩
  rw [htaken]
  exact hts

/-- What the first parser has taken, the second need not take. -/
theorem Spec.bind {taken' : β → ℕ} (hp : Spec T n Q taken p)
    (hf : ∀ a, Q a → Spec T (n - taken a) R (fun b => taken' b - taken a) (f a)) :
    Spec T n R taken' (p >>= f) := by
  intro k hk ts hts
  have hfirst := hp k hk ts hts
  rw [bind_apply]
  cases hpts : p ts with
  | error stop =>
    rw [hpts] at hfirst
    exact hfirst
  | ok read =>
    obtain ⟨a, rest⟩ := read
    rw [hpts] at hfirst
    have hlater := hf a hfirst.1 (k - taken a) (by omega) rest hfirst.2
    dsimp only
    cases hfa : f a rest with
    | error stop =>
      rw [hfa] at hlater
      exact hlater
    | ok read =>
      rw [hfa] at hlater
      refine ⟨hlater.1, hlater.2.mono ?_⟩
      dsimp only
      omega

theorem Spec.peek {kind : τ → κ} {eof : κ} {f : κ → Parser τ ε β} {taken : β → ℕ}
    (h : ∀ next, (next = eof ∨ ∃ t, T t ∧ kind t = next) →
      Spec T n R taken (f next) ∨
      ∃ g, (∀ ts, Parser.next kind eof ts = next → f next ts = (advance >>= g) ts) ∧ next ≠ eof ∧
        Spec T (n - 1) R (fun b => taken b - 1) (g ())) :
    Spec T n R taken (Parser.peek kind eof >>= f) := by
  intro k hk ts hts
  have hpeek : (Parser.peek kind eof >>= f) ts = f (next kind eof ts) ts := rfl
  have hnext : next kind eof ts = eof ∨ ∃ t, T t ∧ kind t = next kind eof ts := by
    cases ts with
    | nil => exact .inl rfl
    | cons t ts => exact .inr ⟨t, hts.2 t mem_cons_self, rfl⟩
  rw [hpeek]
  rcases h (next kind eof ts) hnext with hf | ⟨g, hg, hne, hspec⟩
  · exact hf k hk ts hts
  rw [hg ts rfl]
  cases ts with
  | nil => exact absurd rfl hne
  | cons t ts =>
    have hlength := hts.1
    rw [length_cons] at hlength
    have hrest : Short T (k - 1) ts := ⟨by omega, fun u hu => hts.2 u (mem_cons_of_mem t hu)⟩
    have hlater := hspec (k - 1) (by omega) ts hrest
    have hadvance : ((advance : Parser τ ε Unit) >>= g) (t :: ts) = g () ts := rfl
    rw [hadvance]
    revert hlater
    split
    · intro hlater
      refine ⟨hlater.1, hlater.2.mono ?_⟩
      dsimp only
      omega
    · exact id

/-- A loop keeps what every round keeps, if all but the last take a token. -/
theorem Spec.loop {I : σ → Prop}
    (hbody : ∀ s, I s →
      Spec T n (Sum.elim I Q) (Sum.elim (fun _ => 1) fun _ => 0) (body s)) (hs : I s) :
    Spec T n Q (fun _ => 0) (loop body s) := by
  intro k hk ts hts
  induction hlength : ts.length using Nat.strong_induction_on generalizing s ts with
  | _ length ih =>
    have hround := hbody s hs (ts.length + 1) (Nat.succ_le_of_lt (hts.1.trans_le hk)) ts
      ⟨Nat.lt_succ_self _, hts.2⟩
    change match loopFrom body s ts with
      | .ok (a, rest) => Q a ∧ Short T (k - 0) rest
      | .error stop => stop ≠ .stuck
    rw [loopFrom]
    cases hbts : body s ts with
    | error stop =>
      rw [hbts] at hround
      exact hround
    | ok read =>
      obtain ⟨result, rest⟩ := read
      rw [hbts] at hround
      cases result with
      | inl s' =>
        have hrest : rest.length < ts.length := hround.2.1
        dsimp only
        rw [dif_pos hrest]
        exact ih rest.length (hlength ▸ hrest) hround.1 rest ⟨hrest.trans hts.1, hround.2.2⟩ rfl
      | inr a => exact ⟨hround.1, hround.2.mono (Nat.succ_le_of_lt hts.1)⟩

/-! ## What a parser makes of given tokens -/

/-- Kinds of tokens, or what follows them, begin with a kind that passes. -/
def Leads (kinds : List κ) (follow first : κ → Prop) : Prop :=
  match kinds with
  | [] => ∀ k, follow k → first k
  | k :: _ => first k

theorem leads_true (kinds : List κ) (follow : κ → Prop) : Leads kinds follow fun _ => True := by
  cases kinds with
  | nil => exact fun _ _ => trivial
  | cons => trivial

section

variable (kind : τ → κ) (eof : κ)

/-- Given tokens of fewer than `n` kinds, in front of a token that passes, `p`
takes these and returns `a`. -/
def Yields (n : ℕ) (p : Parser τ ε α) (kinds : List κ) (follow : κ → Prop) (a : α) : Prop :=
  kinds.length < n → ∀ used rest, used.map kind = kinds → follow (next kind eof rest) →
    p (used ++ rest) = .ok (a, rest)

end

variable {kind : τ → κ} {eof : κ} {kinds later : List κ} {follow first : κ → Prop} {a : α} {b : β}

theorem Leads.next {used rest : List τ} (h : Leads later follow first)
    (hused : used.map kind = later) (hrest : follow (Parser.next kind eof rest)) :
    first (Parser.next kind eof (used ++ rest)) := by
  subst hused
  cases used with
  | nil => exact h _ hrest
  | cons t used => exact h

theorem Yields.mono {follow' : κ → Prop}
    (h : Yields kind eof n p kinds follow a) (hm : m ≤ n) (hfollow : ∀ k, follow' k → follow k) :
    Yields kind eof m p kinds follow' a := fun hlength used rest hused hrest =>
  h (hlength.trans_le hm) used rest hused (hfollow _ hrest)

theorem Yields.pure : Yields kind eof n (Pure.pure a : Parser τ ε α) [] follow a := by
  intro _ used rest hused _
  rw [map_eq_nil_iff] at hused
  subst hused
  rfl

theorem Yields.bind (hp : Yields kind eof n p kinds first a)
    (hf : Yields kind eof n (f a) later follow b) (hleads : Leads later follow first) :
    Yields kind eof n (p >>= f) (kinds ++ later) follow b := by
  intro hlength used rest hused hrest
  rw [length_append] at hlength
  obtain ⟨front, back, rfl, hfront, hback⟩ := map_eq_append_iff.mp hused
  rw [append_assoc, bind_of_ok (hp (by omega) front _ hfront (hleads.next hback hrest))]
  exact hf (by omega) back rest hback hrest

theorem Yields.bind_pure (g : α → β) (hp : Yields kind eof n p kinds follow a) :
    Yields kind eof n (p >>= fun a => Pure.pure (g a)) kinds follow (g a) := by
  intro hlength used rest hused hrest
  rw [bind_of_ok (hp hlength used rest hused hrest)]
  rfl

theorem Yields.peek {f : κ → Parser τ ε β} (first : κ → Prop)
    (hf : ∀ k, first k → Yields kind eof n (f k) kinds follow b)
    (hleads : Leads kinds follow first) :
    Yields kind eof n (Parser.peek kind eof >>= f) kinds follow b := by
  intro hlength used rest hused hrest
  change f (Parser.next kind eof (used ++ rest)) (used ++ rest) = _
  exact hf _ (hleads.next hused hrest) hlength used rest hused hrest

theorem Yields.advance {f : Unit → Parser τ ε β} {k : κ}
    (hf : Yields kind eof n (f ()) kinds follow b) :
    Yields kind eof (n + 1) (Parser.advance >>= f) (k :: kinds) follow b := by
  intro hlength used rest hused hrest
  cases used with
  | nil => cases hused
  | cons t used =>
    rw [map_cons, cons.injEq] at hused
    exact hf (Nat.lt_of_succ_lt_succ hlength) used rest hused.2 hrest

theorem Yields.loop_inl {s' : σ} (hne : kinds ≠ [])
    (hround : Yields kind eof n (body s) kinds first (.inl s'))
    (hlater : Yields kind eof n (loop body s') later follow a) (hleads : Leads later follow first) :
    Yields kind eof n (loop body s) (kinds ++ later) follow a := by
  intro hlength used rest hused hrest
  rw [length_append] at hlength
  obtain ⟨front, back, rfl, hfront, hback⟩ := map_eq_append_iff.mp hused
  have hfirst := hround (by omega) front _ hfront (hleads.next hback hrest)
  have hpos : 0 < front.length := by
    rw [length_pos_iff]
    rintro rfl
    exact hne hfront.symm
  change loopFrom body s (front ++ back ++ rest) = _
  rw [append_assoc, loopFrom, hfirst]
  dsimp only
  rw [dif_pos (by simp only [length_append]; omega)]
  exact hlater (by omega) back rest hback hrest

theorem Yields.loop_inr (hround : Yields kind eof n (body s) kinds follow (.inr a)) :
    Yields kind eof n (loop body s) kinds follow a := by
  intro hlength used rest hused hrest
  change loopFrom body s (used ++ rest) = _
  rw [loopFrom, hround hlength used rest hused hrest]

/-- A loop over the tokens of items, one round for each. -/
theorem Yields.loop_list {ι : Type} {print : ι → List κ} (add : σ → List ι → σ) (first : κ → Prop)
    (hnil : ∀ s, add s [] = s) (hcons : ∀ s i items, add (add s [i]) items = add s (i :: items))
    {items : List ι} (hprint : ∀ i ∈ items, ∃ k kinds, print i = k :: kinds ∧ first k)
    (hround : ∀ i ∈ items, ∀ s, Yields kind eof n (body s) (print i) first (.inl (add s [i])))
    (hlater : Yields kind eof n (loop body (add s items)) later follow a)
    (hleads : Leads later follow first) :
    Yields kind eof n (loop body s) (items.flatMap print ++ later) follow a := by
  induction items generalizing s with
  | nil => rwa [hnil] at hlater
  | cons i items ih =>
    obtain ⟨⟨k, kinds, hkinds, _⟩, hprint⟩ := forall_mem_cons.mp hprint
    obtain ⟨hfirst, hround⟩ := forall_mem_cons.mp hround
    rw [← hcons] at hlater
    rw [flatMap_cons, append_assoc]
    refine Yields.loop_inl (by simp [hkinds]) (hfirst s) (ih hprint hround hlater) ?_
    cases items with
    | nil => exact hleads
    | cons j items =>
      obtain ⟨k, kinds, hkinds, hk⟩ := hprint j mem_cons_self
      rw [flatMap_cons, hkinds]
      exact hk

end Parser

end VarahaCache.Lib
