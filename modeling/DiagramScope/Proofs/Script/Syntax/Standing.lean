import DiagramScope.Proofs.Script.Syntax.Grammar
import DiagramScope.Proofs.Script.Syntax.Path

/-!
Where the parts of a syntax tree stand. Main statements: what a phrase is derived from does not
depend on what stands behind it; an expression spans its tokens from the first to the last; and its
children stand one behind the other among them, each as a sum of its own with no more levels.
-/

set_option autoImplicit false
set_option relaxedAutoImplicit false

namespace DiagramScope.Script

namespace Expr

def children : Expr → List Expr
  | vector items _ => items
  | call _ _ arguments _ => arguments
  | signed _ operand _ => [operand]
  | binary _ left right _ => [left, right]
  | _ => []

@[simp]
private theorem children_withSpan (s : Span) (e : Expr) : (e.withSpan s).children = e.children := by
  cases e <;> rfl

/-- The nodes of a tree: its root, and the children of its nodes. -/
inductive HasNode (root : Expr) : Expr → Prop where
  | root : HasNode root root
  | child {e c : Expr} (he : HasNode root e) (hc : c ∈ e.children) : HasNode root c

end Expr

namespace Grammar

variable {φ : Phrase} {k : Chain} {left e : Expr} {es : List Expr} {m n : Nat}
  {run ts rest : List Lexeme}

/-- The tokens are those of a phrase, whatever stands behind them, and none of them ends a
statement. -/
structure Run (φ : Phrase) (n : Nat) (run : List Lexeme) : Prop where
  derives : ∀ rest, Derives φ n (run ++ rest) rest
  inside : ∀ l ∈ run, l.token.isSeparator = false

private theorem isSeparator_of_operator? {t : Token} {operator : Operator}
    (h : k.operator? t = some operator) : t.isSeparator = false := by
  cases t with
  | symbol s => cases k <;> cases s <;> first | rfl | cases h
  | _ => cases k <;> cases h

private theorem Run.derives_closed (h : Run φ n run) {l : Lexeme} (rest : List Lexeme) :
    Derives φ n (run ++ [l] ++ rest) (l :: rest) := by
  rw [List.append_assoc]
  exact h.derives (l :: rest)

private theorem Run.inside_closed (h : Run φ n run) {close : Symbol}
    (hclose : (Token.symbol close).isSeparator = false) (span : Span) :
    ∀ l ∈ run ++ [⟨.symbol close, span⟩], l.token.isSeparator = false :=
  List.forall_mem_append.2 ⟨h.inside, List.forall_mem_singleton.2 hclose⟩

theorem Derives.exists_run (h : Derives φ n ts rest) : ∃ run, ts = run ++ rest ∧ Run φ n run := by
  -- By induction on the derivation: the tokens of a phrase are those of its parts, in their order.
  induction h with
  | chain _ _ ihFirst ihLinks =>
    obtain ⟨ns, rfl, hns⟩ := ihLinks
    obtain ⟨ms, rfl, hms⟩ := ihFirst
    refine ⟨ms ++ ns, (List.append_assoc _ _ _).symm, fun rest => ?_,
      List.forall_mem_append.2 ⟨hms.inside, hns.inside⟩⟩
    rw [List.append_assoc]
    exact .chain (hms.derives _) (hns.derives _)
  | noLink => exact ⟨[], rfl, fun rest => .noLink _ _ rest, nofun⟩
  | @link _ _ _ _ _ l _ _ _ _ _ hl _ _ ihRight ihLinks =>
    obtain ⟨ns, rfl, hns⟩ := ihLinks
    obtain ⟨ms, rfl, hms⟩ := ihRight
    refine ⟨l :: ms ++ ns, (List.append_assoc (l :: ms) _ _).symm, fun rest => ?_,
      List.forall_mem_cons.2 ⟨isSeparator_of_operator? hl,
        List.forall_mem_append.2 ⟨hms.inside, hns.inside⟩⟩⟩
    rw [List.append_assoc]
    exact .link hl (hms.derives _) (hns.derives _)
  | @sign _ l _ _ _ _ hl _ ih =>
    obtain ⟨ms, rfl, hms⟩ := ih
    exact ⟨l :: ms, rfl, fun rest => .sign hl (hms.derives rest),
      List.forall_mem_cons.2 ⟨isSeparator_of_starts (starts_of_sign hl), hms.inside⟩⟩
  | unsigned _ ih =>
    obtain ⟨ms, rfl, hms⟩ := ih
    exact ⟨ms, rfl, fun rest => .unsigned (hms.derives rest), hms.inside⟩
  | base _ ih =>
    obtain ⟨ms, rfl, hms⟩ := ih
    exact ⟨ms, rfl, fun rest => .base (hms.derives rest), hms.inside⟩
  | @raised _ _ caret _ _ _ _ _ _ _ ihBase ihExponent =>
    obtain ⟨ns, rfl, hns⟩ := ihExponent
    obtain ⟨ms, rfl, hms⟩ := ihBase
    refine ⟨ms ++ ⟨.symbol .caret, caret⟩ :: ns, (List.append_assoc _ (_ :: _) _).symm,
      fun rest => ?_, List.forall_mem_append.2
        ⟨hms.inside, List.forall_mem_cons.2 ⟨rfl, hns.inside⟩⟩⟩
    rw [List.append_assoc]
    exact .raised (hms.derives _) (hns.derives _)
  | number value span =>
    exact ⟨[_], rfl, fun rest => .number value span rest, List.forall_mem_singleton.2 rfl⟩
  | text content span =>
    exact ⟨[_], rfl, fun rest => .text content span rest, List.forall_mem_singleton.2 rfl⟩
  | reference name span =>
    exact ⟨[_], rfl, fun rest => .reference name span rest, List.forall_mem_singleton.2 rfl⟩
  | call name nameSpan opening close _ ih =>
    obtain ⟨ms, rfl, hms⟩ := ih
    refine ⟨_ :: _ :: (ms ++ [_]), (List.append_assoc (_ :: _ :: ms) [_] _).symm, fun rest => ?_,
      List.forall_mem_cons.2 ⟨rfl, List.forall_mem_cons.2 ⟨rfl, hms.inside_closed rfl close⟩⟩⟩
    exact .call name nameSpan opening close (hms.derives_closed _)
  | vector opening close _ ih =>
    obtain ⟨ms, rfl, hms⟩ := ih
    refine ⟨_ :: (ms ++ [_]), (List.append_assoc (_ :: ms) [_] _).symm, fun rest => ?_,
      List.forall_mem_cons.2 ⟨rfl, hms.inside_closed rfl close⟩⟩
    exact .vector opening close (hms.derives_closed _)
  | group opening close _ ih =>
    obtain ⟨ms, rfl, hms⟩ := ih
    refine ⟨_ :: (ms ++ [_]), (List.append_assoc (_ :: ms) [_] _).symm, fun rest => ?_,
      List.forall_mem_cons.2 ⟨rfl, hms.inside_closed rfl close⟩⟩
    exact .group opening close (hms.derives_closed _)
  | noItems => exact ⟨[], rfl, fun rest => .noItems rest, nofun⟩
  | items _ _ ihFirst ihMore =>
    obtain ⟨ns, rfl, hns⟩ := ihMore
    obtain ⟨ms, rfl, hms⟩ := ihFirst
    refine ⟨ms ++ ns, (List.append_assoc _ _ _).symm, fun rest => ?_,
      List.forall_mem_append.2 ⟨hms.inside, hns.inside⟩⟩
    rw [List.append_assoc]
    exact .items (hms.derives _) (hns.derives _)
  | noMore => exact ⟨[], rfl, fun rest => .noMore rest, nofun⟩
  | more comma _ _ ihItem ihMore =>
    obtain ⟨ns, rfl, hns⟩ := ihMore
    obtain ⟨ms, rfl, hms⟩ := ihItem
    refine ⟨⟨.symbol .comma, comma⟩ :: ms ++ ns, (List.append_assoc (_ :: ms) _ _).symm,
      fun rest => ?_, List.forall_mem_cons.2 ⟨rfl, List.forall_mem_append.2
        ⟨hms.inside, hns.inside⟩⟩⟩
    rw [List.append_assoc]
    exact .more comma (hms.derives _) (hns.derives _)

def Ordered (run : List Lexeme) : Prop := run.Pairwise fun l m => l.span.stop ≤ m.span.start

theorem Ordered.of_append {before mid behind : List Lexeme}
    (h : Ordered (before ++ mid ++ behind)) : Ordered mid :=
  (List.pairwise_append.1 (List.pairwise_append.1 h).1).2.1

/-- A span reaches from the first token of a run to the last. -/
structure Hull (s : Span) (run : List Lexeme) : Prop where
  start : ∃ l more, run = l :: more ∧ s.start = l.span.start
  stop : ∃ before l, run = before ++ [l] ∧ s.stop = l.span.stop

private theorem Hull.single (l : Lexeme) : Hull l.span [l] := ⟨⟨l, [], rfl, rfl⟩, ⟨[], l, rfl, rfl⟩⟩

private theorem Hull.le_start {s t : Span} {ms ns : List Lexeme} (hs : Hull s ms) (ht : Hull t ns)
    (h : ∀ l ∈ ms, ∀ m ∈ ns, l.span.stop ≤ m.span.start) : s.stop ≤ t.start := by
  obtain ⟨before, l, rfl, hstop⟩ := hs.stop
  obtain ⟨m, more, rfl, hstart⟩ := ht.start
  have hle := h l (by simp) m List.mem_cons_self
  omega

private theorem Hull.union {s t : Span} {ms ns : List Lexeme} (hs : Hull s ms) (ht : Hull t ns)
    (between : List Lexeme) (hordered : Ordered (ms ++ between ++ ns)) :
    Hull (s.union t) (ms ++ between ++ ns) := by
  have hbehind : s.stop ≤ t.start := hs.le_start ht fun l hl m hm =>
    (List.pairwise_append.1 hordered).2.2 l (List.mem_append_left _ hl) m hm
  obtain ⟨first, more, hfirst, hstart⟩ := hs.start
  obtain ⟨before, last, hlast, hstop⟩ := ht.stop
  have hle := s.start_le_stop
  have hle' := t.start_le_stop
  refine ⟨⟨first, more ++ between ++ ns, ?_, ?_⟩, ⟨ms ++ between ++ before, last, ?_, ?_⟩⟩
  · rw [hfirst]
    rfl
  · rw [Span.start_union]
    omega
  · rw [hlast]
    simp only [List.append_assoc]
  · rw [Span.stop_union]
    omega

theorem Hull.mem {s : Span} (h : Hull s run) (hordered : Ordered run) {l : Lexeme} (hl : l ∈ run) :
    s.start ≤ l.span.start ∧ l.span.stop ≤ s.stop := by
  have hle := l.span.start_le_stop
  constructor
  · obtain ⟨first, more, rfl, hstart⟩ := h.start
    rcases List.mem_cons.1 hl with rfl | hl
    · exact Nat.le_of_eq hstart
    · have hbehind := (List.pairwise_cons.1 hordered).1 l hl
      have hfirst := first.span.start_le_stop
      omega
  · obtain ⟨before, last, rfl, hstop⟩ := h.stop
    rcases List.mem_append.1 hl with hl | hl
    · have hbehind := (List.pairwise_append.1 hordered).2.2 l hl last (List.mem_singleton_self _)
      have hlast := last.span.start_le_stop
      omega
    · obtain rfl := List.mem_singleton.1 hl
      exact Nat.le_of_eq hstop.symm

private theorem Hull.within {s t : Span} {mid : List Lexeme} (ht : Hull t mid) (hs : Hull s run)
    (hordered : Ordered run) (hmid : mid ⊆ run) : s.start ≤ t.start ∧ t.stop ≤ s.stop := by
  obtain ⟨first, more, hfirst, hstart⟩ := ht.start
  obtain ⟨before, last, hlast, hstop⟩ := ht.stop
  have hin := hs.mem hordered (hmid (hfirst ▸ List.mem_cons_self))
  have hin' := hs.mem hordered (hmid (hlast ▸ List.mem_append_right _ (List.mem_singleton_self _)))
  omega

/-- What is said of the span of a phrase: an expression spans its tokens, and so does one that is
joined to operands in front. -/
def Phrase.Spans : Phrase → List Lexeme → Prop
  | chain _ e, run => Hull e.span run
  | links _ left e, run =>
    ∀ before, Hull left.span before → Ordered (before ++ run) → Hull e.span (before ++ run)
  | unary e, run => Hull e.span run
  | power e, run => Hull e.span run
  | primary e, run => Hull e.span run
  | items _, _ => True
  | moreItems _, _ => True

private theorem spans_operand_iff : (k.operand e).Spans run ↔ Hull e.span run := by
  cases k <;> exact Iff.rfl

private theorem Derives.exists_spans (h : Derives φ n ts rest) :
    ∃ run, ts = run ++ rest ∧ (Ordered run → φ.Spans run) := by
  induction h with
  | chain _ _ ihFirst ihLinks =>
    obtain ⟨ns, rfl, hns⟩ := ihLinks
    obtain ⟨ms, rfl, hms⟩ := ihFirst
    refine ⟨ms ++ ns, (List.append_assoc _ _ _).symm, fun hordered => ?_⟩
    obtain ⟨hfirst, hlinks, -⟩ := List.pairwise_append.1 hordered
    exact hns hlinks ms (spans_operand_iff.1 (hms hfirst)) hordered
  | noLink =>
    refine ⟨[], rfl, fun _ before hbefore _ => ?_⟩
    rw [List.append_nil]
    exact hbefore
  | @link _ _ _ _ _ l _ _ _ _ _ hl _ _ ihRight ihLinks =>
    obtain ⟨ns, rfl, hns⟩ := ihLinks
    obtain ⟨ms, rfl, hms⟩ := ihRight
    refine ⟨l :: ms ++ ns, (List.append_assoc (l :: ms) _ _).symm,
      fun hordered before hbefore hall => ?_⟩
    -- The links behind this one get the first two operands, joined, as their left operand.
    have hsame : before ++ (l :: ms ++ ns) = before ++ [l] ++ ms ++ ns := by simp
    rw [hsame] at hall ⊢
    obtain ⟨hjoined, hlinks, -⟩ := List.pairwise_append.1 hall
    have hright := spans_operand_iff.1 (hms (List.pairwise_append.1 hjoined).2.1)
    exact hns hlinks _ (hbefore.union hright [l] hjoined) hall
  | sign hl _ ih =>
    obtain ⟨ms, rfl, hms⟩ := ih
    refine ⟨_ :: ms, rfl, fun hordered => ?_⟩
    exact (Hull.single _).union (hms (List.pairwise_cons.1 hordered).2) [] hordered
  | unsigned _ ih => exact ih
  | base _ ih => exact ih
  | @raised _ _ caret _ _ _ _ _ _ _ ihBase ihExponent =>
    obtain ⟨ns, rfl, hns⟩ := ihExponent
    obtain ⟨ms, rfl, hms⟩ := ihBase
    refine ⟨ms ++ [⟨.symbol .caret, caret⟩] ++ ns, by simp, fun hordered => ?_⟩
    obtain ⟨hbase, hexponent, -⟩ := List.pairwise_append.1 hordered
    exact (hms (List.pairwise_append.1 hbase).1).union (hns hexponent) _ hordered
  | number value span => exact ⟨[_], rfl, fun _ => .single ⟨_, span⟩⟩
  | text content span => exact ⟨[_], rfl, fun _ => .single ⟨_, span⟩⟩
  | reference name span => exact ⟨[_], rfl, fun _ => .single ⟨_, span⟩⟩
  | call name nameSpan opening close _ ih =>
    obtain ⟨ms, rfl, -⟩ := ih
    refine ⟨[_] ++ (_ :: ms) ++ [_], (List.append_assoc (_ :: _ :: ms) [_] _).symm,
      fun hordered => ?_⟩
    exact (Hull.single ⟨_, nameSpan⟩).union (.single ⟨_, close⟩) _ hordered
  | vector opening close _ ih =>
    obtain ⟨ms, rfl, -⟩ := ih
    refine ⟨[_] ++ ms ++ [_], (List.append_assoc (_ :: ms) [_] _).symm, fun hordered => ?_⟩
    exact (Hull.single ⟨_, opening⟩).union (.single ⟨_, close⟩) _ hordered
  | group opening close _ ih =>
    obtain ⟨ms, rfl, -⟩ := ih
    refine ⟨[_] ++ ms ++ [_], (List.append_assoc (_ :: ms) [_] _).symm, fun hordered => ?_⟩
    simp only [Phrase.Spans, Expr.span_withSpan]
    exact (Hull.single ⟨_, opening⟩).union (.single ⟨_, close⟩) _ hordered
  | noItems => exact ⟨[], rfl, fun _ => trivial⟩
  | noMore => exact ⟨[], rfl, fun _ => trivial⟩
  | items hfirst hmore =>
    obtain ⟨run, hrun, -⟩ := (Derives.items hfirst hmore).exists_run
    exact ⟨run, hrun, fun _ => trivial⟩
  | more comma hitem hmore =>
    obtain ⟨run, hrun, -⟩ := (Derives.more comma hitem hmore).exists_run
    exact ⟨run, hrun, fun _ => trivial⟩

private theorem Derives.sum_of_chain (h : Derives (.chain k e) n ts rest) :
    Derives (.chain .sum e) n ts rest := by
  cases k with
  | sum => exact h
  | product =>
    have hsum : Derives (.chain .sum e) (max n 0) ts rest := .chain (k := .sum) h (.noLink _ _ _)
    rwa [Nat.max_zero] at hsum

private theorem Derives.sum_of_operand (h : Derives (k.operand e) n ts rest) :
    Derives (.chain .sum e) n ts rest := by
  cases k with
  | sum => exact sum_of_chain h
  | product => exact sum_of_unary h

private theorem Derives.sum_of_primary (h : Derives (.primary e) n ts rest) :
    Derives (.chain .sum e) (n + 1) ts rest := sum_of_unary (.unsigned (.base h))

private theorem Derives.links_cases (h : Derives (.links k left e) n ts rest) :
    (e = left ∧ ts = rest) ∨ ∃ operator x right l us p q, e = .joined operator x right ∧
      p ≤ n ∧ Derives (.links k left x) p ts (l :: us) ∧
        q ≤ n ∧ Derives (k.operand right) q us rest := by
  generalize hφ : Phrase.links k left e = φ at h
  induction h generalizing left with
  | noLink =>
    cases hφ
    exact Or.inl ⟨rfl, rfl⟩
  | @link _ first right _ operator l m _ ts _ _ hl hright _ _ ih =>
    cases hφ
    rcases ih rfl with ⟨rfl, rfl⟩ | ⟨operator', x, right', l', us', p, q, rfl, hp, hx, hq, hright'⟩
    · exact Or.inr ⟨operator, first, right, l, ts, 0, m, rfl, Nat.zero_le _, .noLink _ _ _,
        by omega, hright⟩
    · exact Or.inr ⟨operator', x, right', l', us', max m p + 1, q, rfl, by omega,
        .link hl hright hx, by omega, hright'⟩
  | _ => cases hφ

/-- The tokens alone are an expression, as a sum with at most so many nesting levels. -/
def Stands (e : Expr) (n : Nat) (run : List Lexeme) : Prop :=
  ∃ m ≤ n, Derives (.chain .sum e) m run []

private theorem Run.stands (h : Run (.chain .sum e) m run) (hm : m ≤ n) : Stands e n run := by
  have halone := h.derives []
  rw [List.append_nil] at halone
  exact ⟨m, hm, halone⟩

private theorem Derives.exists_stands (h : Derives (.chain .sum e) m ts rest) (hm : m ≤ n) :
    ∃ run, ts = run ++ rest ∧ Stands e n run := by
  obtain ⟨run, hts, hrun⟩ := h.exists_run
  exact ⟨run, hts, hrun.stands hm⟩

/-- Expressions stand one behind the other among tokens, whatever stands between them. -/
inductive Parts (n : Nat) : List Expr → List Lexeme → Prop where
  | nil (run : List Lexeme) : Parts n [] run
  | cons {e : Expr} {es : List Expr} {run more : List Lexeme} (skipped : List Lexeme)
      (h : Stands e n run) (hmore : Parts n es more) : Parts n (e :: es) (skipped ++ run ++ more)

namespace Parts

private theorem behind (h : Parts n es run) (skipped : List Lexeme) :
    Parts n es (skipped ++ run) := by
  cases h with
  | nil => exact .nil _
  | cons skipped' h hmore =>
    have hcons := Parts.cons (skipped ++ skipped') h hmore
    simpa only [List.append_assoc] using hcons

private theorem before (h : Parts n es run) (skipped : List Lexeme) :
    Parts n es (run ++ skipped) := by
  induction h with
  | nil => exact .nil _
  | cons skipped' h _ ih =>
    rw [List.append_assoc]
    exact .cons skipped' h ih

private theorem mono (h : Parts m es run) (hmn : m ≤ n) : Parts n es run := by
  induction h with
  | nil => exact .nil _
  | cons skipped h _ ih =>
    obtain ⟨level, hlevel, hderives⟩ := h
    exact .cons skipped ⟨level, Nat.le_trans hlevel hmn, hderives⟩ ih

private theorem single (h : Stands e n run) : Parts n [e] run := by
  have hcons := Parts.cons [] h (.nil [])
  rwa [List.nil_append, List.append_nil] at hcons

private theorem pair {right : Expr} {ms ns : List Lexeme} (hleft : Stands left n ms)
    (hright : Stands right n ns) (l : Lexeme) : Parts n [left, right] (ms ++ l :: ns) :=
  .cons [] hleft ((single hright).behind [l])

private theorem closed (h : Parts n es run) (opening : List Lexeme) (l : Lexeme) :
    Parts (n + 1) es (opening ++ (run ++ [l])) :=
  ((h.before [l]).behind opening).mono (Nat.le_succ n)

/-- Each of the expressions stands somewhere. -/
theorem exists_stands (h : Parts n es run) (he : e ∈ es) :
    ∃ before mid behind, run = before ++ mid ++ behind ∧ Stands e n mid := by
  induction h with
  | nil => cases he
  | @cons e' es mid more skipped h _ ih =>
    rcases List.mem_cons.1 he with rfl | he
    · exact ⟨skipped, mid, more, rfl, h⟩
    · obtain ⟨before, mid', behind, rfl, h'⟩ := ih he
      exact ⟨skipped ++ mid ++ before, mid', behind, by simp, h'⟩

end Parts

/-- What is said of the children of a phrase: those of an expression stand among its tokens. A base
of a power and what is not unary count one level more on their own. -/
def Phrase.HasParts (n : Nat) : Phrase → List Lexeme → Prop
  | chain _ e, run => Parts n e.children run
  | links _ _ _, _ => True
  | unary e, run => Parts n e.children run
  | power e, run => Parts (n + 1) e.children run
  | primary e, run => Parts (n + 1) e.children run
  | items es, run => Parts n es run
  | moreItems es, run => Parts n es run

private theorem hasParts_operand_iff : (k.operand e).HasParts n run ↔ Parts n e.children run := by
  cases k <;> exact Iff.rfl

private theorem Derives.exists_parts (h : Derives φ n ts rest) :
    ∃ run, ts = run ++ rest ∧ φ.HasParts n run := by
  induction h with
  | @chain k first e m n ts us rest hfirst hlinks ihFirst _ =>
    -- Chains associate to the left, so the left child is all of the chain but its last link.
    rcases hlinks.links_cases with ⟨rfl, rfl⟩ |
      ⟨operator, x, right, l, us', p, q, rfl, hp, hx, hq, hright⟩
    · obtain ⟨ms, rfl, hms⟩ := ihFirst
      exact ⟨ms, rfl, (hasParts_operand_iff.1 hms).mono (Nat.le_max_left m n)⟩
    · have hleft : Derives (.chain .sum x) (max m p) ts (l :: us') :=
        (Derives.chain hfirst hx).sum_of_chain
      obtain ⟨ms, rfl, hms⟩ := hleft.exists_stands (by omega : _ ≤ max m n)
      obtain ⟨ns, rfl, hns⟩ := hright.sum_of_operand.exists_stands (by omega : _ ≤ max m n)
      exact ⟨ms ++ l :: ns, by simp, .pair hms hns l⟩
  | noLink => exact ⟨[], rfl, trivial⟩
  | link hl hright hlinks =>
    obtain ⟨run, hrun, -⟩ := (Derives.link hl hright hlinks).exists_run
    exact ⟨run, hrun, trivial⟩
  | @sign _ l _ n _ _ _ hoperand _ =>
    obtain ⟨ms, rfl, hms⟩ := hoperand.sum_of_unary.exists_stands (Nat.le_succ n)
    exact ⟨l :: ms, rfl, (Parts.single hms).behind [l]⟩
  | unsigned _ ih => exact ih
  | base _ ih => exact ih
  | @raised _ _ caret m n _ _ _ hbase hexponent =>
    have hle : n ≤ max m n + 1 := by omega
    obtain ⟨ns, rfl, hns⟩ := hexponent.sum_of_unary.exists_stands hle
    obtain ⟨ms, rfl, hms⟩ := hbase.sum_of_primary.exists_stands (by omega : _ ≤ max m n + 1)
    exact ⟨ms ++ ⟨.symbol .caret, caret⟩ :: ns, by simp, .pair hms hns _⟩
  | number => exact ⟨[_], rfl, .nil _⟩
  | text => exact ⟨[_], rfl, .nil _⟩
  | reference => exact ⟨[_], rfl, .nil _⟩
  | call name nameSpan opening close _ ih =>
    obtain ⟨ms, rfl, hms⟩ := ih
    exact ⟨[_, _] ++ (ms ++ [_]), (List.append_assoc (_ :: _ :: ms) [_] _).symm, hms.closed _ _⟩
  | vector opening close _ ih =>
    obtain ⟨ms, rfl, hms⟩ := ih
    exact ⟨[_] ++ (ms ++ [_]), (List.append_assoc (_ :: ms) [_] _).symm, hms.closed _ _⟩
  | group opening close _ ih =>
    obtain ⟨ms, rfl, hms⟩ := ih
    refine ⟨[_] ++ (ms ++ [_]), (List.append_assoc (_ :: ms) [_] _).symm, ?_⟩
    simp only [Phrase.HasParts, Expr.children_withSpan]
    exact hms.closed _ _
  | noItems => exact ⟨[], rfl, .nil _⟩
  | noMore => exact ⟨[], rfl, .nil _⟩
  | items hfirst _ _ ihMore =>
    obtain ⟨ns, rfl, hns⟩ := ihMore
    obtain ⟨ms, rfl, hms⟩ := hfirst.exists_stands (Nat.le_max_left _ _)
    exact ⟨[] ++ ms ++ ns, (List.append_assoc ms ns _).symm,
      .cons [] hms (hns.mono (Nat.le_max_right _ _))⟩
  | more comma hitem _ _ ihMore =>
    obtain ⟨ns, rfl, hns⟩ := ihMore
    obtain ⟨ms, rfl, hms⟩ := hitem.exists_stands (Nat.le_max_left _ _)
    exact ⟨[_] ++ ms ++ ns, (List.append_assoc (_ :: ms) ns _).symm,
      .cons [_] hms (hns.mono (Nat.le_max_right _ _))⟩

theorem Stands.parts (h : Stands e n run) : Parts n e.children run := by
  obtain ⟨m, hm, hderives⟩ := h
  obtain ⟨run', hrun, hparts⟩ := hderives.exists_parts
  rw [List.append_nil] at hrun
  rw [hrun]
  exact Parts.mono hparts hm

theorem Stands.exists_node {root : Expr} (h : Stands root n run) (he : root.HasNode e) :
    ∃ before mid behind, run = before ++ mid ++ behind ∧ Stands e n mid := by
  induction he with
  | root => exact ⟨[], run, [], by simp, h⟩
  | child _ hc ih =>
    obtain ⟨before, mid, behind, rfl, hmid⟩ := ih
    obtain ⟨before', mid', behind', rfl, hmid'⟩ := hmid.parts.exists_stands hc
    exact ⟨before ++ before', mid', behind' ++ behind, by simp, hmid'⟩

theorem Stands.hull (h : Stands e n run) (hordered : Ordered run) : Hull e.span run := by
  obtain ⟨m, -, hderives⟩ := h
  obtain ⟨run', hrun, hspans⟩ := hderives.exists_spans
  rw [List.append_nil] at hrun
  subst hrun
  exact hspans hordered

theorem Parts.pairwise (h : Parts n es run) (hordered : Ordered run) :
    es.Pairwise fun c d => c.span.stop ≤ d.span.start := by
  induction h with
  | nil => exact .nil
  | @cons e es mid more skipped h hmore ih =>
    obtain ⟨hmid, hbehind, hle⟩ := List.pairwise_append.1 hordered
    refine .cons (fun d hd => ?_) (ih hbehind)
    obtain ⟨before, mid', behind, rfl, hd'⟩ := hmore.exists_stands hd
    have hhull := h.hull (List.pairwise_append.1 hmid).2.1
    refine hhull.le_start (hd'.hull (Ordered.of_append hbehind)) fun l hl m hm => ?_
    exact hle l (List.mem_append_right _ hl) m (by simp [hm])

theorem Stands.children_within (h : Stands e n run) (hordered : Ordered run) {c : Expr}
    (hc : c ∈ e.children) : e.span.start ≤ c.span.start ∧ c.span.stop ≤ e.span.stop := by
  obtain ⟨before, mid, behind, rfl, hmid⟩ := h.parts.exists_stands hc
  exact (hmid.hull hordered.of_append).within (h.hull hordered) hordered (by simp)

structure StatementRun (s : Statement) (n : Nat) (run : List Lexeme) : Prop where
  isStatement : ∀ rest, IsStatement s n (run ++ rest) rest
  inside : ∀ l ∈ run, l.token.isSeparator = false
  value : ∃ before mid, run = before ++ mid ∧ Stands s.value n mid
  hull : Ordered run → Hull s.span run

theorem IsStatement.exists_run {s : Statement} (h : IsStatement s n ts rest) :
    ∃ run, ts = run ++ rest ∧ StatementRun s n run := by
  cases h with
  | assign name nameSpan equals h =>
    obtain ⟨run, rfl, hrun⟩ := h.exists_run
    have hstands := hrun.stands (Nat.le_refl _)
    refine ⟨[_, _] ++ run, rfl, fun rest => .assign name nameSpan equals (hrun.derives rest), ?_,
      ⟨[_, _], run, rfl, hstands⟩, fun hordered => ?_⟩
    · exact List.forall_mem_cons.2 ⟨rfl, List.forall_mem_cons.2 ⟨rfl, hrun.inside⟩⟩
    · have hvalue := hstands.hull (List.pairwise_append.1 hordered).2.1
      exact (Hull.single ⟨_, nameSpan⟩).union hvalue [_] hordered
  | expression h =>
    obtain ⟨run, rfl, hrun⟩ := h.exists_run
    have hstands := hrun.stands (Nat.le_refl _)
    exact ⟨run, rfl, fun rest => .expression (hrun.derives rest), hrun.inside,
      ⟨[], run, rfl, hstands⟩, hstands.hull⟩

/-- The tokens are those of statements one behind the other, with separators between them. -/
inductive Laid (n : Nat) : List Statement → List Lexeme → Prop where
  | nil : Laid n [] []
  | separator {program : List Statement} {l : Lexeme} {ts : List Lexeme}
      (hl : l.token.isSeparator = true) (h : Laid n program ts) : Laid n program (l :: ts)
  | statement {s : Statement} {program : List Statement} {m : Nat} {run ts : List Lexeme}
      (hm : m ≤ n) (hs : StatementRun s m run) (h : Laid n program ts) :
      Laid n (s :: program) (run ++ ts)

section Program

variable {program : List Statement}

private theorem Laid.mono (h : Laid m program ts) (hmn : m ≤ n) : Laid n program ts := by
  induction h with
  | nil => exact .nil
  | separator hl _ ih => exact .separator hl ih
  | statement hm hs _ ih => exact .statement (Nat.le_trans hm hmn) hs ih

theorem IsProgram.laid (h : IsProgram program n ts) : Laid n program ts := by
  induction h with
  | nil => exact .nil
  | separator hl _ ih => exact .separator hl ih
  | last h =>
    obtain ⟨run, rfl, hrun⟩ := h.exists_run
    exact .statement (Nat.le_refl _) hrun .nil
  | @cons s program m n l ts us hfirst hl _ ih =>
    obtain ⟨run, rfl, hrun⟩ := hfirst.exists_run
    exact .statement (Nat.le_max_left m n) hrun (.separator hl (ih.mono (Nat.le_max_right m n)))

theorem IsProgram.exists_take (h : IsProgram program n ts) (count : Nat) :
    ∃ before behind, ts = before ++ behind ∧ ∃ m ≤ n, IsProgram (program.take count) m before := by
  induction h generalizing count with
  | nil => exact ⟨[], [], rfl, 0, Nat.le_refl 0, by rw [List.take_nil]; exact .nil⟩
  | @separator program n l ts hl _ ih =>
    obtain ⟨before, behind, rfl, m, hm, hbefore⟩ := ih count
    exact ⟨l :: before, behind, rfl, m, hm, .separator hl hbefore⟩
  | @last s n ts h =>
    cases count with
    | zero => exact ⟨[], ts, rfl, 0, Nat.zero_le n, .nil⟩
    | succ count => exact ⟨ts, [], (List.append_nil ts).symm, n, Nat.le_refl n, by
        rw [List.take_succ_cons, List.take_nil]
        exact .last h⟩
  | @cons s program m n l ts us hfirst hl _ ih =>
    cases count with
    | zero => exact ⟨[], ts, rfl, 0, Nat.zero_le _, .nil⟩
    | succ count =>
      obtain ⟨run, rfl, hrun⟩ := hfirst.exists_run
      obtain ⟨before, behind, rfl, n', hn', hbefore⟩ := ih count
      exact ⟨run ++ l :: before, behind, by simp, max m n', by omega,
        .cons (hrun.isStatement _) hl hbefore⟩

theorem Laid.exists_run (h : Laid n program ts) {s : Statement} (hs : s ∈ program) :
    ∃ before run behind, ts = before ++ run ++ behind ∧ ∃ m ≤ n, StatementRun s m run := by
  induction h with
  | nil => cases hs
  | @separator _ l _ _ _ ih =>
    obtain ⟨before, run, behind, rfl, hrun⟩ := ih hs
    exact ⟨l :: before, run, behind, rfl, hrun⟩
  | @statement s' program m run ts hm hrun _ ih =>
    rcases List.mem_cons.1 hs with rfl | hs
    · exact ⟨[], run, ts, rfl, m, hm, hrun⟩
    · obtain ⟨before, run', behind, rfl, hrun'⟩ := ih hs
      exact ⟨run ++ before, run', behind, by simp, hrun'⟩

theorem Laid.exists_mem (h : Laid n program ts) {l : Lexeme} (hl : l ∈ ts)
    (hinside : l.token.isSeparator = false) :
    ∃ s ∈ program, ∃ before run behind, ts = before ++ run ++ behind ∧ l ∈ run ∧
      ∃ m, StatementRun s m run := by
  induction h with
  | nil => cases hl
  | @separator _ l' _ hl' _ ih =>
    rcases List.mem_cons.1 hl with rfl | hl
    · rw [hl'] at hinside
      cases hinside
    · obtain ⟨s, hs, before, run, behind, rfl, hmem, hrun⟩ := ih hl
      exact ⟨s, hs, l' :: before, run, behind, rfl, hmem, hrun⟩
  | @statement s program m run ts hm hrun _ ih =>
    rcases List.mem_append.1 hl with hl | hl
    · exact ⟨s, List.mem_cons_self, [], run, ts, rfl, hl, m, hrun⟩
    · obtain ⟨s', hs', before, run', behind, rfl, hmem, hrun'⟩ := ih hl
      exact ⟨s', List.mem_cons_of_mem _ hs', run ++ before, run', behind, by simp, hmem, hrun'⟩

theorem Laid.pairwise (h : Laid n program ts) (hordered : Ordered ts) :
    program.Pairwise fun s t => s.span.stop ≤ t.span.start := by
  induction h with
  | nil => exact .nil
  | separator _ _ ih => exact ih (List.pairwise_cons.1 hordered).2
  | @statement s program m run ts hm hrun hmore ih =>
    obtain ⟨hfirst, hbehind, hle⟩ := List.pairwise_append.1 hordered
    refine .cons (fun t ht => ?_) (ih hbehind)
    obtain ⟨before, run', behind, rfl, _, -, hrun'⟩ := hmore.exists_run ht
    refine (hrun.hull hfirst).le_start (hrun'.hull (Ordered.of_append hbehind)) fun l hl m hm => ?_
    exact hle l hl m (by simp [hm])

end Program

end Grammar

end DiagramScope.Script
