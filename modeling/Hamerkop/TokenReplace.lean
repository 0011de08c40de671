import Hamerkop.Lib.Splice

/-!
# `tokenreplace`

The attribute macro of `tokenreplace/src/lib.rs`: every occurrence of an ident, at any depth
of groups, is replaced by a stream of tokens.

The source walks over the trees and writes to an output stream.  Written out with its opening
and closing delimiters, the result is the input with the replacement spliced in
(`flat_walkStream`), so all tokens other than the ident stay where they are, and counting them
is counting in lists (`walkStream_exact`).
-/

namespace Hamerkop

open Splice

/-- The kinds of brackets a group has. -/
inductive Delimiter where
  | parenthesis
  | brace
  | bracket
  | none
deriving DecidableEq, Repr

/-- Whether a punctuation mark is followed by another at once. -/
inductive Spacing where
  | alone
  | joint
deriving DecidableEq, Repr

/-- The trees of a token stream, without their spans. -/
inductive TokenTree where
  | group (delimiter : Delimiter) (stream : List TokenTree)
  | ident (ident : String)
  | punct (ch : Char) (spacing : Spacing)
  | literal (literal : String)

/-- A stream of trees. -/
abbrev TokenStream := List TokenTree

/-- The arguments of the macro. -/
structure Meta where
  search : String
  replace : TokenStream

mutual

/-- `walk_stream`, with the output stream before and after. -/
def walkStream (args : Meta) : TokenStream → TokenStream → TokenStream
  | [], out => out
  | tree :: stream, out => walkStream args stream (walkTree args tree out)

/-- `walk_tree` -/
def walkTree (args : Meta) : TokenTree → TokenStream → TokenStream
  | .group delimiter stream, out => out ++ [.group delimiter (walkStream args stream [])]
  | .ident ident, out => if ident = args.search then out ++ args.replace else out ++ [.ident ident]
  | .punct ch spacing, out => out ++ [.punct ch spacing]
  | .literal literal, out => out ++ [.literal literal]

end

/-! ## The tokens in their order -/

/-- The tokens of a stream when the groups are written out. -/
inductive Token where
  | opening (delimiter : Delimiter)
  | closing (delimiter : Delimiter)
  | ident (ident : String)
  | punct (ch : Char) (spacing : Spacing)
  | literal (literal : String)
deriving DecidableEq, Repr

mutual

/-- The tokens of a stream, the brackets of its groups among them. -/
def flat : TokenStream → List Token
  | [] => []
  | tree :: stream => flatTree tree ++ flat stream

/-- The tokens of a tree. -/
def flatTree : TokenTree → List Token
  | .group delimiter stream => .opening delimiter :: (flat stream ++ [.closing delimiter])
  | .ident ident => [.ident ident]
  | .punct ch spacing => [.punct ch spacing]
  | .literal literal => [.literal literal]

end

/-- How often the ident occurs, at any depth. -/
def occurrences (ident : String) (stream : TokenStream) : ℕ := (flat stream).count (.ident ident)

@[simp] theorem flat_append (s t : TokenStream) : flat (s ++ t) = flat s ++ flat t := by
  induction s with
  | nil => simp [flat]
  | cons tree s ih => simp [flat, ih]

theorem walkTree_eq (args : Meta) (tree : TokenTree) (out : TokenStream) :
    walkTree args tree out = out ++ walkTree args tree [] := by
  cases tree with
  | group delimiter stream => simp [walkTree]
  | ident ident =>
    unfold walkTree
    split_ifs <;> simp
  | punct ch spacing => simp [walkTree]
  | literal literal => simp [walkTree]

/-- What has been written to the output stays in front. -/
theorem walkStream_eq (args : Meta) (stream out : TokenStream) :
    walkStream args stream out = out ++ walkStream args stream [] := by
  induction stream generalizing out with
  | nil => simp [walkStream]
  | cons tree stream ih =>
    unfold walkStream
    rw [ih, walkTree_eq, ih (walkTree args tree []), List.append_assoc]

theorem walkStream_cons (args : Meta) (tree : TokenTree) (stream : TokenStream) :
    walkStream args (tree :: stream) [] = walkTree args tree [] ++ walkStream args stream [] :=
  walkStream_eq args stream (walkTree args tree [])

theorem walkStream_append (args : Meta) (s t : TokenStream) :
    walkStream args (s ++ t) [] = walkStream args s [] ++ walkStream args t [] := by
  induction s with
  | nil => simp [walkStream]
  | cons tree s ih => rw [List.cons_append, walkStream_cons, ih, walkStream_cons, List.append_assoc]

mutual

/-- **The replacement is spliced in, and nothing else changes.** -/
theorem flat_walkStream (args : Meta) (stream : TokenStream) :
    flat (walkStream args stream []) =
      splice (.ident args.search) (flat args.replace) (flat stream) := by
  cases stream with
  | nil => simp [walkStream, flat]
  | cons tree stream =>
    rw [walkStream_cons, flat_append, flat_walkTree args tree, flat_walkStream args stream, flat,
      splice_append]

theorem flat_walkTree (args : Meta) (tree : TokenTree) :
    flat (walkTree args tree []) =
      splice (.ident args.search) (flat args.replace) (flatTree tree) := by
  cases tree with
  | group delimiter stream =>
    have ih := flat_walkStream args stream
    simp [walkTree, flat, flatTree, splice_cons_of_ne, ih]
  | ident ident =>
    by_cases h : ident = args.search
    · simp [walkTree, flatTree, h, splice_cons_self]
    · simp [walkTree, flat, flatTree, h, splice_cons_of_ne]
  | punct ch spacing => simp [walkTree, flat, flatTree, splice_cons_of_ne]
  | literal literal => simp [walkTree, flat, flatTree, splice_cons_of_ne]

end

mutual

/-- Without the ident nothing changes, in groups neither. -/
theorem walkStream_of_not_mem (args : Meta) (stream : TokenStream)
    (h : Token.ident args.search ∉ flat stream) : walkStream args stream [] = stream := by
  cases stream with
  | nil => simp [walkStream]
  | cons tree stream =>
    rw [flat, List.mem_append, not_or] at h
    rw [walkStream_cons, walkTree_of_not_mem args tree h.1, walkStream_of_not_mem args stream h.2]
    rfl

theorem walkTree_of_not_mem (args : Meta) (tree : TokenTree)
    (h : Token.ident args.search ∉ flatTree tree) : walkTree args tree [] = [tree] := by
  cases tree with
  | group delimiter stream =>
    have ih := walkStream_of_not_mem args stream (by simpa [flatTree] using h)
    simp [walkTree, ih]
  | ident ident =>
    have hne : ident ≠ args.search := by
      rintro rfl
      simp [flatTree] at h
    simp [walkTree, hne]
  | punct ch spacing => simp [walkTree]
  | literal literal => simp [walkTree]

end

/-! ## Exact substitution -/

/-- **Replacing is an exact substitution at every depth.** -/
theorem walkStream_exact (args : Meta) (stream : TokenStream) :
    (∀ b, b ≠ args.search →
      occurrences b (walkStream args stream []) =
        occurrences b stream + occurrences b args.replace * occurrences args.search stream) ∧
    occurrences args.search (walkStream args stream []) =
      occurrences args.search stream * occurrences args.search args.replace ∧
    (occurrences args.search args.replace = 0 →
      occurrences args.search (walkStream args stream []) = 0 ∧
        walkStream args (walkStream args stream []) [] = walkStream args stream []) ∧
    flat (walkStream args stream []) =
      splice (.ident args.search) (flat args.replace) (flat stream) ∧
    ∀ stream', walkStream args (stream ++ stream') [] =
      walkStream args stream [] ++ walkStream args stream' [] := by
  have hself : occurrences args.search (walkStream args stream []) =
      occurrences args.search stream * occurrences args.search args.replace := by
    unfold occurrences
    rw [flat_walkStream, count_splice_self]
  refine ⟨?_, hself, ?_, flat_walkStream args stream, walkStream_append args stream⟩
  · intro b hb
    unfold occurrences
    rw [flat_walkStream, count_splice_of_ne (by simpa using hb)]
  · intro hreplace
    rw [hreplace, Nat.mul_zero] at hself
    refine ⟨hself, ?_⟩
    apply walkStream_of_not_mem
    exact List.count_eq_zero.mp hself

/-- Inside a group as well. -/
example :
    walkStream ⟨"a", [.ident "b", .punct ':' .alone]⟩
      [.ident "a", .group .brace [.literal "0", .ident "a"]] [] =
    [.ident "b", .punct ':' .alone,
      .group .brace [.literal "0", .ident "b", .punct ':' .alone]] := by
  simp [walkStream, walkTree]

end Hamerkop
