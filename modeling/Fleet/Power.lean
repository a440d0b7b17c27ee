/-!
# Powers

Bounds such as `2 ^ 64` and scales such as `10 ^ 9` are powers in the sense of the core library. An
algebraic hierarchy brings a second power with it, equal to the first; where this module is imported
the text `2 ^ 64` stands for the core one in either case.
-/

set_option autoImplicit false

attribute [instance (20000), default_instance 20000] instPowNat
