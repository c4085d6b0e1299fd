import MitScheme.Runtime.Sorting.MergeSort
import MitScheme.Runtime.Regexp.Replacement
import MitScheme.Runtime.MimeCodec.QuotedPrintablePackets
import MitScheme.Runtime.MimeCodec.BinHex
import MitScheme.Runtime.IntegerBits.Srfi60
import MitScheme.Runtime.IntegerBits.Counts
import MitScheme.Compiler.RtlOpt.Allocation
import MitScheme.Runtime.Rationals.Simplest
import MitScheme.Runtime.Arithmetic.SquareRoots
import MitScheme.Runtime.Dynamic.Refinement
import MitScheme.Compiler.RegisterMap.Coercion
import MitScheme.Runtime.WeakPair.Sessions
import MitScheme.Runtime.ThreadQueue.Histories
import MitScheme.Runtime.Ieee754.Exactness
import MitScheme.Runtime.BinaryPort.Accounts
import MitScheme.Runtime.MimeCodec.Base64RoundTrip
import MitScheme.Runtime.Utf.Codecs
import MitScheme.Runtime.HashTable.Collections
import MitScheme.Runtime.RbTree.Runs
import MitScheme.Runtime.WtTree.CommonKeys
import MitScheme.Runtime.WtTree.Positions
import MitScheme.Runtime.StringSearch
import MitScheme.Runtime.NfdOrderer
import MitScheme.Microcode.Bignum.DigitStreams
import MitScheme.Microcode.Lookup.Aliasing
import MitScheme.Microcode.Lookup.CoherentRuns
import MitScheme.Sf.Preservation
import MitScheme.Runtime.NumberParser.Errors
import MitScheme.Runtime.NumberParser.Integers
import MitScheme.Microcode.AvlTree
import MitScheme.Compiler.RegisterMap.LookAhead
import MitScheme.Runtime.Trie
