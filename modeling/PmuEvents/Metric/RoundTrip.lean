import PmuEvents.Metric.Ends
set_option autoImplicit false

/-!
# Which expressions the decoder reads back

An expression that the decoder made comes back from its printed text exactly when its
leaves and its comparisons survive, as `Expr.Survives` has it.
-/

namespace PmuEvents.Metric

open PmuEvents.Foundation

section RoundTrip

variable {py : PyFloat}

/-- An expression that survives is parsed from its printed text. -/
theorem parsePerfJson_of_survives {e : Expr} (hok : e.LeavesOk) (hsign : e.Unsigned)
    (hevaluated : e.Evaluated) (h : e.Survives py) :
    parsePerfJson py e.toPerfJson = some e := by
  obtain ⟨t, v, last, htree, heval, hgives, -⟩ := evalPy_write hevaluated h.leaves h.apart
  have htokens : tokenize (pyLexer py) _ = _ :=
    tokenize_toPerfJson hok hsign (strip_of_tight hok hsign h.tight)
  have hfits : (Cst.write PrintedTree.brackets t).Fits BinOp.pyLevel 0 :=
    (Cst.fits_write_iff pyLevel_pos t 0).mpr ⟨t.fits_zero, operands_pyTree h.apart htree⟩
  have hread := hfits.readTokens pyLevel_pos
  rw [Cst.tokens_write] at hread
  rw [htree, Option.map_some] at htokens
  rw [parsePerfJson, htokens, Option.bind_eq_bind, Option.bind_some, hread, Option.bind_eq_bind,
    Option.bind_some, heval, Option.bind_eq_bind, Option.bind_some, hgives.1]
  rfl

/-- An expression that is parsed from its printed text survives. -/
theorem survives_of_parsePerfJson {e : Expr} (hleaves : e.LeavesOk) (hsign : e.Unsigned)
    (h : parsePerfJson py e.toPerfJson = some e) : e.Survives py := by
  have htight : ∀ name, e.lastName = some name → name.getLast?.any isSpace = false :=
    fun _ hname => tight_of_parsed hleaves hsign h hname
  obtain ⟨hsurvive, happart⟩ :=
    survives_of_parsed hleaves hsign (strip_of_tight hleaves hsign htight) h
  exact ⟨htight, hsurvive, happart⟩

end RoundTrip

/-- Python reads the comparison of `(a < b) & c`, printed without its brackets, as one of
`a` with `b & c`. -/
example : parsePerfJson ⟨.finite, fun _ _ _ => none⟩
    (Expr.operator .and (.operator .lt (.event ['a']) (.event ['b'])) (.event ['c'])).toPerfJson =
      some (.operator .lt (.event ['a']) (.operator .and (.event ['b']) (.event ['c']))) := by
  decide +kernel

end PmuEvents.Metric
