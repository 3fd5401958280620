/-!
# The support file of TypeScript clients
-/

namespace GraphClient.TypeScript

/-- The types of requests and the functions that decoders and encoders are made of. -/
def supportLines : List String :=
  [
    "export type JsonValue =",
    "  | null",
    "  | boolean",
    "  | number",
    "  | string",
    "  | JsonValue[]",
    "  | \x7b [key: string]: JsonValue \x7d;",
    "",
    "export type Decoder<T> = (value: unknown, path: string) => T;",
    "export type Encoder<T> = (value: T) => JsonValue;",
    "",
    "export interface GraphQLRequest \x7b",
    "  operationName: string;",
    "  query: string;",
    "  variables: \x7b [key: string]: JsonValue \x7d;",
    "\x7d",
    "",
    "/** Thrown when a response does not match the selection it was decoded for. */",
    "export class ShapeMismatchError extends Error \x7b",
    "  readonly path: string;",
    "",
    "  constructor(path: string, expected: string, found: unknown) \x7b",
    "    super(`$\x7bpath\x7d: expected $\x7bexpected\x7d, found $\x7bdescribe(found)\x7d`);",
    "    this.name = \"ShapeMismatchError\";",
    "    this.path = path;",
    "  \x7d",
    "\x7d",
    "",
    "function describe(value: unknown): string \x7b",
    "  if (value === null) return \"null\";",
    "  if (value === undefined) return \"nothing\";",
    "  if (Array.isArray(value)) return \"a list\";",
    "  return `a $\x7btypeof value\x7d`;",
    "\x7d",
    "",
    "export function expectString(value: unknown, path: string): string \x7b",
    "  if (typeof value !== \"string\") throw new ShapeMismatchError(path, \"a string\", value);",
    "  return value;",
    "\x7d",
    "",
    "export function expectInt(value: unknown, path: string): number \x7b",
    "  if (typeof value !== \"number\" || !Number.isInteger(value)) \x7b",
    "    throw new ShapeMismatchError(path, \"an integer\", value);",
    "  \x7d",
    "  return value;",
    "\x7d",
    "",
    "export function expectFloat(value: unknown, path: string): number \x7b",
    "  if (typeof value !== \"number\") throw new ShapeMismatchError(path, \"a number\", value);",
    "  return value;",
    "\x7d",
    "",
    "export function expectBoolean(value: unknown, path: string): boolean \x7b",
    "  if (typeof value !== \"boolean\") throw new ShapeMismatchError(path, \"a boolean\", value);",
    "  return value;",
    "\x7d",
    "",
    "export function expectPresent(value: unknown, path: string): JsonValue \x7b",
    "  if (value === null || value === undefined) throw new ShapeMismatchError(path, \"a value\", value);",
    "  return value as JsonValue;",
    "\x7d",
    "",
    "export function expectObject(value: unknown, path: string): Record<string, unknown> \x7b",
    "  if (typeof value !== \"object\" || value === null || Array.isArray(value)) \x7b",
    "    throw new ShapeMismatchError(path, \"an object\", value);",
    "  \x7d",
    "  return value as Record<string, unknown>;",
    "\x7d",
    "",
    "export function expectOneOf<T extends string>(values: readonly T[]): Decoder<T> \x7b",
    "  return (value, path) => \x7b",
    "    if (typeof value !== \"string\" || !(values as readonly string[]).includes(value)) \x7b",
    "      throw new ShapeMismatchError(path, `one of $\x7bvalues.join(\", \")\x7d`, value);",
    "    \x7d",
    "    return value as T;",
    "  \x7d;",
    "\x7d",
    "",
    "export function nullable<T>(decode: Decoder<T>): Decoder<T | null> \x7b",
    "  return (value, path) => (value === null || value === undefined ? null : decode(value, path));",
    "\x7d",
    "",
    "export function list<T>(decode: Decoder<T>): Decoder<T[]> \x7b",
    "  return (value, path) => \x7b",
    "    if (!Array.isArray(value)) throw new ShapeMismatchError(path, \"a list\", value);",
    "    return value.map((item, index) => decode(item, `$\x7bpath\x7d[$\x7bindex\x7d]`));",
    "  \x7d;",
    "\x7d",
    "",
    "export function field<T>(",
    "  object: Record<string, unknown>,",
    "  key: string,",
    "  path: string,",
    "  decode: Decoder<T>,",
    "): T \x7b",
    "  return decode(object[key], `$\x7bpath\x7d.$\x7bkey\x7d`);",
    "\x7d",
    "",
    "export function typenameOf(object: Record<string, unknown>, path: string): string \x7b",
    "  return expectString(object[\"__typename\"], `$\x7bpath\x7d.__typename`);",
    "\x7d",
    "",
    "export function encodeNullable<T>(encode: Encoder<T>): Encoder<T | null | undefined> \x7b",
    "  return (value) => (value === null || value === undefined ? null : encode(value));",
    "\x7d",
    "",
    "export function encodeList<T>(encode: Encoder<T>): Encoder<readonly T[]> \x7b",
    "  return (value) => value.map(encode);",
    "\x7d",
    "",
    "/** Drops keys whose value is undefined. */",
    "export function compact(fields: \x7b",
    "  [key: string]: JsonValue | undefined;",
    "\x7d): \x7b [key: string]: JsonValue \x7d \x7b",
    "  const out: \x7b [key: string]: JsonValue \x7d = \x7b\x7d;",
    "  for (const [key, value] of Object.entries(fields)) \x7b",
    "    if (value !== undefined) out[key] = value;",
    "  \x7d",
    "  return out;",
    "\x7d"
  ]

end GraphClient.TypeScript
